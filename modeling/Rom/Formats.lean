import Rom.Bytes

/-!
Formats: how values are written as bytes, and read from the front of them. A value
fits when the numbers it is written behind hold the lengths they stand for. What
is written of a value that fits is read back, whatever follows it, and nothing but
such bytes is read; so bytes can be read exactly if they begin with a complete
value (`isSome_read_iff`), and a value is read back from what is written of it exactly if
it fits (`read_write_iff`). Formats are put together from records of fixed size by
pairs and by lists behind their number.
-/
namespace Rom

/-- A way to write values, and to read one from the front of bytes. -/
structure Format (α : Type*) where
  write : α → Bytes
  read : Bytes → Option (α × Bytes)
  Fits : α → Prop
  read_write : ∀ a, Fits a → ∀ rest, read (write a ++ rest) = some (a,rest)
  of_read : ∀ data a rest, read data = some (a,rest) → Fits a ∧ data = write a ++ rest

namespace Format
variable {α β : Type*}

/-- The bytes begin with all bytes of a value. -/
def Complete (f : Format α) (data : Bytes) : Prop := ∃ a rest, f.Fits a ∧ data = f.write a ++ rest

theorem isSome_read_iff (f : Format α) (data : Bytes) : (f.read data).isSome ↔ f.Complete data := by
  constructor
  · intro readable
    obtain ⟨⟨a,rest⟩,read⟩ := Option.isSome_iff_exists.mp readable
    exact ⟨a,rest,f.of_read data a rest read⟩
  · rintro ⟨a,rest,fits,rfl⟩
    rw [f.read_write a fits rest]
    rfl

theorem read_eq_none_iff (f : Format α) (data : Bytes) : f.read data = none ↔ ¬ f.Complete data := by
  rw [← isSome_read_iff,Option.not_isSome_iff_eq_none]

/-- A value is read back, with nothing left over, exactly if it fits. -/
theorem read_write_iff (f : Format α) (a : α) : f.read (f.write a) = some (a,[]) ↔ f.Fits a := by
  constructor
  · exact fun read => (f.of_read _ a [] read).1
  · intro fits
    have read := f.read_write a fits []
    rwa [List.append_nil] at read

/-- What is read is read alike from its own bytes. -/
theorem read_own {f : Format α} {data rest : Bytes} {a : α} (read : f.read data = some (a,rest)) {n : ℕ}
    (own : n + rest.length = data.length) : f.read (data.take n) = some (a,[]) ∧ data.drop n = rest := by
  obtain ⟨fits,rfl⟩ := f.of_read data a rest read
  rw [List.length_append,Nat.add_right_cancel_iff] at own
  rw [own,List.take_left,List.drop_left]
  exact ⟨(f.read_write_iff a).mpr fits,rfl⟩

/-- All bytes that are written are needed to read them. -/
theorem read_take {f : Format α} {a : α} (fits : f.Fits a) {n : ℕ} (short : n < (f.write a).length) :
    f.read ((f.write a).take n) = none := by
  rw [read_eq_none_iff]
  rintro ⟨b,rest,fits',same⟩
  have whole : f.write a = f.write b ++ (rest ++ (f.write a).drop n) := by
    rw [← List.append_assoc,← same,List.take_append_drop]
  have own := (f.read_write_iff a).mpr fits
  rw [whole,f.read_write b fits'] at own
  have left : rest ++ (f.write a).drop n = [] := (Prod.mk.inj (Option.some.inj own)).2
  have none := List.drop_eq_nil_iff.mp (List.append_eq_nil_iff.mp left).2
  omega

/-- Values written as values of another kind. -/
def through (f : Format α) (forth : α → β) (back : β → α) (left : ∀ a, back (forth a) = a)
    (right : ∀ b, forth (back b) = b) : Format β where
  write b := f.write (back b)
  read data := (f.read data).map (fun x => (forth x.1,x.2))
  Fits b := f.Fits (back b)
  read_write b fits rest := by
    rw [f.read_write _ fits,Option.map_some,right]
  of_read data b rest read := by
    obtain ⟨⟨a,behind⟩,first,same⟩ := Option.map_eq_some_iff.mp read
    cases same
    rw [left]
    exact f.of_read data a behind first

/-! ### Records and numbers -/

/-- Records of a fixed size. -/
def fixed (size : ℕ) (write : α → Bytes) (value : Bytes → α) (length : ∀ a, (write a).length = size)
    (reads : ∀ a rest, value (write a ++ rest) = a)
    (writes : ∀ data : Bytes, size ≤ data.length → write (value data) = data.take size) : Format α where
  write := write
  read data := if data.length < size then none else some (value data,data.drop size)
  Fits _ := True
  read_write a _ rest := by
    rw [if_neg (by rw [List.length_append,length]; omega),reads,← length a,List.drop_left]
  of_read data a rest read := by
    by_cases short : data.length < size
    · rw [if_pos short] at read
      cases read
    · rw [if_neg short] at read
      cases read
      rw [writes data (not_lt.mp short),List.take_append_drop]
      exact ⟨trivial,rfl⟩

/-- A number in a byte. -/
def number8 : Format ℕ where
  write n := [UInt8.ofNat n]
  read
    | [] => none
    | b :: rest => some (b.toNat,rest)
  Fits n := n < 2^8
  read_write n fits rest := by
    show some ((UInt8.ofNat n).toNat,rest) = _
    rw [UInt8.toNat_ofNat',Nat.mod_eq_of_lt fits]
  of_read data n rest read := by
    cases data with
    | nil => cases read
    | cons b data =>
      cases read
      exact ⟨b.toNat_lt,by rw [UInt8.ofNat_toNat]; rfl⟩

/-- A number in two bytes. -/
def number16 : Format ℕ where
  write n := writeU16 (UInt16.ofNat n)
  read data := if data.length < 2 then none else some ((readU16 data).toNat,data.drop 2)
  Fits n := n < 2^16
  read_write n fits rest := by
    rw [if_neg (writeU16_not_short _ _),readU16_write,drop_writeU16,UInt16.toNat_ofNat',Nat.mod_eq_of_lt fits]
  of_read data n rest read := by
    by_cases short : data.length < 2
    · rw [if_pos short] at read
      cases read
    · rw [if_neg short] at read
      cases read
      rw [UInt16.ofNat_toNat,writeU16_read (not_lt.mp short),List.take_append_drop]
      exact ⟨(readU16 data).toNat_lt,rfl⟩

/-! ### Pairs and lists -/

/-- One value after another. -/
def pair (f : Format α) (g : Format β) : Format (α × β) where
  write a := f.write a.1 ++ g.write a.2
  read data :=
    match f.read data with
    | none => none
    | some (a,data) =>
      match g.read data with
      | none => none
      | some (b,rest) => some ((a,b),rest)
  Fits a := f.Fits a.1 ∧ g.Fits a.2
  read_write a fits rest := by
    rw [List.append_assoc,f.read_write a.1 fits.1]
    dsimp only
    rw [g.read_write a.2 fits.2]
  of_read data a rest read := by
    cases first : f.read data with
    | none => simp [first] at read
    | some found =>
      obtain ⟨b,behind⟩ := found
      cases second : g.read behind with
      | none => simp [first,second] at read
      | some found =>
        obtain ⟨c,last⟩ := found
        simp only [first,second,Option.some.injEq,Prod.mk.injEq] at read
        obtain ⟨rfl,rfl⟩ := read
        obtain ⟨fits,rfl⟩ := f.of_read _ _ _ first
        obtain ⟨fits',rfl⟩ := g.of_read _ _ _ second
        exact ⟨⟨fits,fits'⟩,(List.append_assoc _ _ _).symm⟩

theorem read_pair (f : Format α) (g : Format β) (data : Bytes) :
    (pair f g).read data = match f.read data with
      | none => none
      | some (a,data) =>
        match g.read data with
        | none => none
        | some (b,rest) => some ((a,b),rest) := rfl

/-- Reads `n` values one after the other. -/
def readList (f : Format α) : ℕ → Bytes → Option (List α × Bytes)
  | 0, data => some ([],data)
  | n+1, data =>
    match f.read data with
    | none => none
    | some (a,data) =>
      match readList f n data with
      | none => none
      | some (l,rest) => some (a :: l,rest)

theorem readList_write {f : Format α} {l : List α} (fits : ∀ a ∈ l, f.Fits a) (rest : Bytes) :
    f.readList l.length (l.flatMap f.write ++ rest) = some (l,rest) := by
  induction l with
  | nil => rfl
  | cons a l ih =>
    rw [List.flatMap_cons,List.append_assoc,List.length_cons,readList,f.read_write a (fits a List.mem_cons_self)]
    dsimp only
    rw [ih (fun a member => fits a (List.mem_cons_of_mem _ member))]

theorem of_readList {f : Format α} {n : ℕ} {data rest : Bytes} {l : List α} (read : f.readList n data = some (l,rest)) :
    l.length = n ∧ (∀ a ∈ l, f.Fits a) ∧ data = l.flatMap f.write ++ rest := by
  induction n generalizing data l with
  | zero =>
    cases read
    exact ⟨rfl,by simp,rfl⟩
  | succ n ih =>
    rw [readList] at read
    cases first : f.read data with
    | none => simp [first] at read
    | some found =>
      obtain ⟨a,behind⟩ := found
      cases others : f.readList n behind with
      | none => simp [first,others] at read
      | some found =>
        obtain ⟨m,last⟩ := found
        simp only [first,others,Option.some.injEq,Prod.mk.injEq] at read
        obtain ⟨rfl,rfl⟩ := read
        obtain ⟨length,fits,same⟩ := ih others
        obtain ⟨fits',same'⟩ := f.of_read _ _ _ first
        refine ⟨by rw [List.length_cons,length],?_,?_⟩
        · intro b member
          rcases List.mem_cons.mp member with rfl | later
          · exact fits'
          · exact fits b later
        · rw [same',same,List.flatMap_cons,List.append_assoc]

/-- A list behind the number of its values. -/
def counted (number : Format ℕ) (f : Format α) : Format (List α) where
  write l := number.write l.length ++ l.flatMap f.write
  read data :=
    match number.read data with
    | none => none
    | some (n,data) => f.readList n data
  Fits l := number.Fits l.length ∧ ∀ a ∈ l, f.Fits a
  read_write l fits rest := by
    rw [List.append_assoc,number.read_write _ fits.1]
    exact readList_write fits.2 rest
  of_read data l rest read := by
    cases first : number.read data with
    | none => simp [first] at read
    | some found =>
      obtain ⟨n,behind⟩ := found
      simp only [first] at read
      obtain ⟨rfl,fits,rfl⟩ := of_readList read
      obtain ⟨fits',rfl⟩ := number.of_read _ _ _ first
      exact ⟨⟨fits',fits⟩,(List.append_assoc _ _ _).symm⟩

theorem read_counted8 (f : Format α) (data : Bytes) :
    (counted number8 f).read data =
      if data.length < 1 then none else f.readList (byteAt data 0).toNat (data.drop 1) := by
  cases data with
  | nil => rfl
  | cons b data => rfl

theorem read_counted16 (f : Format α) (data : Bytes) :
    (counted number16 f).read data =
      if data.length < 2 then none else f.readList (readU16 data).toNat (data.drop 2) := by
  show (match (if data.length < 2 then none else some ((readU16 data).toNat,data.drop 2)) with
    | none => none
    | some (n,data) => f.readList n data) = _
  by_cases short : data.length < 2
  · rw [if_pos short,if_pos short]
  · rw [if_neg short,if_neg short]

/-! ### Lists of records -/

section
variable {size : ℕ} {write : α → Bytes} {value : Bytes → α} {length : ∀ a, (write a).length = size}
  {reads : ∀ a rest, value (write a ++ rest) = a}
  {writes : ∀ data : Bytes, size ≤ data.length → write (value data) = data.take size}

/-- The records at the front of bytes that hold enough of them. -/
def records (size : ℕ) (value : Bytes → α) : ℕ → Bytes → List α
  | 0, _ => []
  | n+1, data => value data :: records size value n (data.drop size)

/-- Records can be read exactly if their bytes are there. -/
theorem readList_fixed (n : ℕ) (data : Bytes) :
    (fixed size write value length reads writes).readList n data =
      if data.length < n * size then none else some (records size value n data,data.drop (n * size)) := by
  induction n generalizing data with
  | zero => simp [readList,records]
  | succ n ih =>
    have total : (n + 1) * size = size + n * size := by ring
    rw [readList,total]
    show (match (if data.length < size then none else some (value data,data.drop size)) with
      | none => none
      | some (a,data) => _) = _
    by_cases short : data.length < size
    · rw [if_pos short,if_pos (by omega)]
    · rw [if_neg short]
      dsimp only
      rw [ih,List.length_drop]
      by_cases cut : data.length < size + n * size
      · rw [if_pos (by omega),if_pos cut]
      · rw [if_neg (by omega),if_neg cut,List.drop_drop]
        rfl

end

theorem byteAt_singleton (b : UInt8) (rest : Bytes) : byteAt ([b] ++ rest) 0 = b := rfl

theorem singleton_byteAt (data : Bytes) (long : 1 ≤ data.length) : [byteAt data 0] = data.take 1 := by
  match data, long with
  | b :: _, _ => rfl

/-- A byte. -/
def byte : Format UInt8 :=
  fixed 1 (fun b => [b]) (fun data => byteAt data 0) (fun _ => List.length_singleton) byteAt_singleton singleton_byteAt

theorem readList_byte (n : ℕ) (data : Bytes) :
    byte.readList n data = if data.length < n then none else some (data.take n,data.drop n) := by
  have taken : ∀ (n : ℕ) (data : Bytes), n ≤ data.length → records 1 (fun data => byteAt data 0) n data = data.take n := by
    intro n
    induction n with
    | zero => exact fun _ _ => rfl
    | succ n ih =>
      intro data long
      match data, long with
      | b :: data, long => exact congrArg (b :: ·) (ih data (Nat.le_of_succ_le_succ long))
  rw [byte,readList_fixed,Nat.mul_one]
  by_cases short : data.length < n
  · rw [if_pos short,if_pos short]
  · rw [if_neg short,if_neg short,taken n data (not_lt.mp short)]

end Format
end Rom
