import Rom.AckTracker
import Rom.Bitmaps
import Rom.Runs

/-!
The window of received packet numbers against an unbounded history. Packet numbers are
counted without end and go over the wire modulo 2^32. As long as each is within 2^31 of
the largest before it, the tracker knows the largest number, and of the 256 numbers up
to it which were received (`bitmap_refines`); the shift of the bitmap moves each bit by
the distance (`bitAt_shiftBitmap`).
-/
namespace Rom.Window
open Rom.Runs Bitmaps RecvTracker

/-- The bytes of the bitmap as a row. -/
def row (bitmap : Vector UInt8 32) (i : ℕ) : UInt8 := bitmap.getD i 0

theorem row_eq (bitmap : Vector UInt8 32) (i : ℕ) : row bitmap i = bitmap[i]?.getD 0 := by
  simp [row,Vector.getD,Array.getD_eq_getD_getElem?]

theorem row_set (bitmap : Vector UInt8 32) {i : ℕ} (inside : i < 32) (b : UInt8) (j : ℕ) :
    row (bitmap.setIfInBounds i b) j = if j = i then b else row bitmap j := by
  simp only [row_eq,Vector.getElem?_setIfInBounds]
  by_cases here : j = i
  · simp [here,inside]
  · simp [here,Ne.symm here]

/-! ### The shift -/

/-- A shifted byte comes from the bytes at and below its index. -/
theorem shiftedByte_congr {a b : Vector UInt8 32} {i : ℕ} (same : ∀ j ≤ i, row a j = row b j) (q r : ℕ) :
    shiftedByte q r a i = shiftedByte q r b i := by
  have at_ : a.getD (i - q) 0 = b.getD (i - q) 0 := same (i - q) (by omega)
  have below : a.getD (i - q - 1) 0 = b.getD (i - q - 1) 0 := same (i - q - 1) (by omega)
  simp only [shiftedByte,at_,below]

/-- The loop runs downwards, so what it reads is not yet overwritten. -/
theorem row_shiftBytes (q r : ℕ) {n : ℕ} (inside : n ≤ 32) (bitmap : Vector UInt8 32) (j : ℕ) :
    row (shiftBytes q r n bitmap) j = if j < n then shiftedByte q r bitmap j else row bitmap j := by
  induction n generalizing bitmap with
  | zero => rfl
  | succ n ih =>
    rw [shiftBytes,ih (by omega)]
    by_cases low : j < n
    · rw [if_pos low,if_pos (by omega)]
      refine shiftedByte_congr (fun i below => ?_) q r
      rw [row_set _ (by omega),if_neg (by omega)]
    · rw [if_neg low,row_set _ (by omega)]
      by_cases here : j = n
      · rw [if_pos here,if_pos (by omega),here]
      · rw [if_neg here,if_neg (by omega)]

/-- A shift moves each bit and leaves zeros. -/
theorem bitAt_shiftBitmap (bitmap : Vector UInt8 32) (shift : ℕ) {k : ℕ} (inside : k < 256) :
    bitAt (row (shiftBitmap bitmap shift)) k = (decide (shift ≤ k) && bitAt (row bitmap) (k - shift)) := by
  have byte : k / 8 < 32 := by omega
  rw [shiftBitmap]
  split
  · next far =>
    have beyond : ¬ shift ≤ k := by
      rw [bitmapSize] at far
      omega
    simp [beyond,bitAt,row_eq,byte]
  · split
    · next whole =>
      have moved : ∀ j < 32, row (Vector.ofFn (fun i : Fin 32 =>
          if i.val < shift / 8 then 0 else bitmap.getD (i.val - shift / 8) 0)) j =
            if j < shift / 8 then 0 else row bitmap (j - shift / 8) := by
        intro j low
        rw [row_eq]
        simp [row,low]
      rw [bitAt_moved moved byte]
      have all : 8 * (shift / 8) = shift := by omega
      rw [all]
    · next part =>
      have carried : ∀ j < 32, row (shiftBytes (shift / 8) (shift % 8) 32 bitmap) j =
          if j < shift / 8 then 0
          else if j - shift / 8 > 0 then
            row bitmap (j - shift / 8) <<< UInt8.ofNat (shift % 8) |||
              row bitmap (j - shift / 8 - 1) >>> UInt8.ofNat (8 - shift % 8)
          else row bitmap (j - shift / 8) <<< UInt8.ofNat (shift % 8) := by
        intro j low
        rw [row_shiftBytes _ _ le_rfl,if_pos low]
        rfl
      rw [bitAt_carried (Nat.pos_of_ne_zero part) (Nat.mod_lt _ (by decide)) carried byte]
      have all : 8 * (shift / 8) + shift % 8 = shift := by omega
      rw [all]

/-! ### Bits by their distance -/

theorem getBit_eq {t : RecvTracker} (begun : t.hasReceived = true) (n : UInt32) :
    t.getBit n = (!seqGt n t.largestReceived && decide ((t.largestReceived - n).toNat < 256) &&
      bitAt (row t.bitmap) (t.largestReceived - n).toNat) := by
  rw [getBit,begun]
  cases seqGt n t.largestReceived with
  | true => rfl
  | false =>
    by_cases far : (t.largestReceived - n).toNat ≥ bitmapSize
    · have beyond : ¬ (t.largestReceived - n).toNat < 256 := Nat.not_lt.mpr far
      simp [far,beyond]
    · have inside : (t.largestReceived - n).toNat < 256 := Nat.not_le.mp far
      simp only [far,inside,if_false,Bool.not_true,Bool.false_eq_true,Bool.not_false,decide_true,Bool.true_and,bitAt]
      exact test_single _ (Nat.mod_lt _ (by decide))

/-- Setting a bit keeps all others. -/
theorem bitAt_setBit {t : RecvTracker} (begun : t.hasReceived = true) {n : UInt32}
    (before : seqGt n t.largestReceived = false)
    {k : ℕ} (inside : k < 256) :
    bitAt (row (t.setBit n).bitmap) k = (decide (k = (t.largestReceived - n).toNat) || bitAt (row t.bitmap) k) := by
  rw [setBit,begun,before]
  by_cases far : (t.largestReceived - n).toNat ≥ bitmapSize
  · have other : k ≠ (t.largestReceived - n).toNat := by
      rw [bitmapSize] at far
      omega
    simp [far,other]
  · have byte : (t.largestReceived - n).toNat / 8 < 32 := by
      rw [bitmapSize] at far
      omega
    simp only [far,if_false,Bool.not_true,Bool.false_eq_true]
    refine bitAt_set (fun j => ?_) k
    rw [row_set _ byte]
    by_cases here : j = (t.largestReceived - n).toNat / 8
    · simp [here,row]
    · simp [here]

theorem setBit_rest (t : RecvTracker) (n : UInt32) :
    (t.setBit n).largestReceived = t.largestReceived ∧ (t.setBit n).hasReceived = t.hasReceived := by
  rw [setBit]
  split
  · exact ⟨rfl,rfl⟩
  · split
    · exact ⟨rfl,rfl⟩
    · dsimp only
      split
      · exact ⟨rfl,rfl⟩
      · exact ⟨rfl,rfl⟩

/-! ### The history -/

/-- The largest of the numbers seen. -/
def largestOf (seen : List ℕ) : ℕ := seen.foldr max 0

/-- The next number is within 2^31 of the largest so far. -/
def Near (seen : List ℕ) (p : ℕ) : Prop := seen ≠ [] → p < largestOf seen + 2^31 ∧ largestOf seen < p + 2^31

instance (seen : List ℕ) (p : ℕ) : Decidable (Near seen p) := inferInstanceAs (Decidable (seen ≠ [] → _))

/-- What the tracker holds of the numbers seen. -/
structure Mirrors (t : RecvTracker) (seen : List ℕ) : Prop where
  begun : t.hasReceived = !seen.isEmpty
  largest : t.largestReceived = UInt32.ofNat (largestOf seen)
  bits : seen ≠ [] → ∀ k < 256, bitAt (row t.bitmap) k = true ↔ k ≤ largestOf seen ∧ largestOf seen - k ∈ seen

theorem largestOf_snoc (seen : List ℕ) (p : ℕ) : largestOf (seen ++ [p]) = max (largestOf seen) p := by
  induction seen with
  | nil => simp [largestOf]
  | cons q seen ih =>
    show max q (largestOf (seen ++ [p])) = max (max q (largestOf seen)) p
    rw [ih,max_assoc]

theorem le_largestOf {seen : List ℕ} {p : ℕ} (member : p ∈ seen) : p ≤ largestOf seen := by
  induction seen with
  | nil => cases member
  | cons q seen ih =>
    rcases List.mem_cons.mp member with rfl | later
    · exact Nat.le_max_left _ _
    · exact (ih later).trans (Nat.le_max_right _ _)

/-- The distance of two numbers, modulo 2^32. -/
theorem distance (m p : ℕ) : (UInt32.ofNat m - UInt32.ofNat p).toNat = (2^32 - p % 2^32 + m % 2^32) % 2^32 := by
  rw [UInt32.toNat_sub,UInt32.toNat_ofNat',UInt32.toNat_ofNat']

theorem distance_back {m p : ℕ} (below : p ≤ m) (close : m < p + 2^32) :
    (UInt32.ofNat m - UInt32.ofNat p).toNat = m - p := by
  rw [distance]
  omega

theorem seqGt_of_lt {m p : ℕ} (above : m < p) (close : p ≤ m + 2^31) : seqGt (UInt32.ofNat p) (UInt32.ofNat m) = true := by
  rw [seqGt_iff,distance]
  omega

theorem not_seqGt_of_le {m p : ℕ} (below : p ≤ m) (close : m < p + 2^31) :
    seqGt (UInt32.ofNat p) (UInt32.ofNat m) = false := by
  rw [← Bool.not_eq_true,seqGt_iff,distance_back below (by omega)]
  omega

theorem seqGt_self (n : UInt32) : seqGt n n = false := by
  rw [← Bool.not_eq_true,seqGt_iff,UInt32.sub_self]
  decide

/-- The first number. -/
theorem mirrors_first {t : RecvTracker} (mirrors : Mirrors t []) (p : ℕ) :
    Mirrors (t.onPacketReceived (UInt32.ofNat p)) [p] := by
  have begun : t.hasReceived = false := mirrors.begun
  rw [onPacketReceived,begun]
  simp only [Bool.not_false,if_true]
  obtain ⟨largest,received⟩ := setBit_rest ⟨UInt32.ofNat p,true,Vector.replicate 32 0⟩ (UInt32.ofNat p)
  refine ⟨received,largest.trans ?_,fun _ k inside => ?_⟩
  · simp [largestOf]
  · rw [bitAt_setBit rfl (seqGt_self _) inside]
    have empty : bitAt (row (Vector.replicate 32 0)) k = false := by
      have byte : k / 8 < 32 := by omega
      simp [bitAt,row_eq,byte]
    rw [empty]
    simp [largestOf]
    omega

theorem hasReceived_of_seen {t : RecvTracker} {seen : List ℕ} (mirrors : Mirrors t seen) (some_seen : seen ≠ []) :
    t.hasReceived = true := by
  simp [mirrors.begun,some_seen]

/-- A number above the largest moves the window. -/
theorem mirrors_above {t : RecvTracker} {seen : List ℕ} {p : ℕ} (mirrors : Mirrors t seen) (some_seen : seen ≠ [])
    (above : largestOf seen < p) (close : p < largestOf seen + 2^31) :
    Mirrors (t.onPacketReceived (UInt32.ofNat p)) (seen ++ [p]) := by
  have begun := hasReceived_of_seen mirrors some_seen
  have largest : largestOf (seen ++ [p]) = p := by
    rw [largestOf_snoc]
    omega
  have later : seqGt (UInt32.ofNat p) t.largestReceived = true := by
    rw [mirrors.largest]
    exact seqGt_of_lt above close.le
  have shift : (UInt32.ofNat p - t.largestReceived).toNat = p - largestOf seen := by
    rw [mirrors.largest]
    exact distance_back above.le (by omega)
  rw [onPacketReceived,begun]
  simp only [later,shift,Bool.not_true,Bool.false_eq_true,if_false,if_true]
  obtain ⟨sameLargest,received⟩ :=
    setBit_rest ⟨UInt32.ofNat p,true,shiftBitmap t.bitmap (p - largestOf seen)⟩ (UInt32.ofNat p)
  refine ⟨?_,?_,fun _ k inside => ?_⟩
  · rw [received]
    simp
  · rw [sameLargest,largest]
  · rw [bitAt_setBit rfl (seqGt_self _) inside,bitAt_shiftBitmap _ _ inside,largest]
    have bits := mirrors.bits some_seen (k - (p - largestOf seen)) (by omega)
    simp only [UInt32.sub_self,UInt32.toNat_zero,Bool.or_eq_true,decide_eq_true_eq,Bool.and_eq_true,bits,List.mem_append,
      List.mem_singleton]
    constructor
    · rintro (rfl | ⟨far,low,member⟩)
      · exact ⟨Nat.zero_le _,.inr rfl⟩
      · have same : largestOf seen - (k - (p - largestOf seen)) = p - k := by omega
        rw [same] at member
        exact ⟨by omega,.inl member⟩
    · rintro ⟨low,member | here⟩
      · have bound := le_largestOf member
        have same : largestOf seen - (k - (p - largestOf seen)) = p - k := by omega
        rw [same]
        exact .inr ⟨by omega,by omega,member⟩
      · exact .inl (by omega)

/-- Any other number sets its bit if it is in the window. -/
theorem mirrors_below {t : RecvTracker} {seen : List ℕ} {p : ℕ} (mirrors : Mirrors t seen) (some_seen : seen ≠ [])
    (below : p ≤ largestOf seen) (close : largestOf seen < p + 2^31) :
    Mirrors (t.onPacketReceived (UInt32.ofNat p)) (seen ++ [p]) := by
  have begun := hasReceived_of_seen mirrors some_seen
  have largest : largestOf (seen ++ [p]) = largestOf seen := by
    rw [largestOf_snoc]
    omega
  have earlier : seqGt (UInt32.ofNat p) t.largestReceived = false := by
    rw [mirrors.largest]
    exact not_seqGt_of_le below close
  have offset : (t.largestReceived - UInt32.ofNat p).toNat = largestOf seen - p := by
    rw [mirrors.largest]
    exact distance_back below (by omega)
  obtain ⟨sameLargest,received⟩ := setBit_rest t (UInt32.ofNat p)
  rw [onPacketReceived,begun]
  simp only [earlier,Bool.not_true,Bool.false_eq_true,if_false]
  refine ⟨?_,?_,fun _ k inside => ?_⟩
  · rw [received,begun]
    simp
  · rw [sameLargest,mirrors.largest,largest]
  · rw [bitAt_setBit begun earlier inside,offset,largest]
    simp only [Bool.or_eq_true,decide_eq_true_eq,mirrors.bits some_seen k inside,List.mem_append,List.mem_singleton]
    constructor
    · rintro (rfl | ⟨low,member⟩)
      · exact ⟨by omega,.inr (by omega)⟩
      · exact ⟨low,.inl member⟩
    · rintro ⟨low,member | here⟩
      · exact .inr ⟨low,member⟩
      · exact .inl (by omega)

theorem mirrors_step {t : RecvTracker} {seen : List ℕ} {p : ℕ} (mirrors : Mirrors t seen) (near : Near seen p) :
    Mirrors (t.onPacketReceived (UInt32.ofNat p)) (seen ++ [p]) := by
  by_cases some_seen : seen = []
  · subst some_seen
    exact mirrors_first mirrors p
  · obtain ⟨high,low⟩ := near some_seen
    by_cases above : largestOf seen < p
    · exact mirrors_above mirrors some_seen above high
    · exact mirrors_below mirrors some_seen (Nat.not_lt.mp above) low

theorem mirrors_run {t : RecvTracker} {seen numbers : List ℕ} (mirrors : Mirrors t seen)
    (near : Along (fun seen p => seen ++ [p]) Near seen numbers) :
    Mirrors (run onPacketReceived t (numbers.map UInt32.ofNat)) (seen ++ numbers) := by
  induction numbers generalizing t seen with
  | nil =>
    rw [List.append_nil]
    exact mirrors
  | cons p numbers ih =>
    rw [List.append_cons]
    exact ih (mirrors_step mirrors near.1) near.2

theorem isDuplicate_iff {t : RecvTracker} {seen : List ℕ} (mirrors : Mirrors t seen) {q : ℕ}
    (high : q ≤ largestOf seen + 2^31) (low : largestOf seen ≤ q + 2^31) :
    t.isDuplicate (UInt32.ofNat q) = true ↔ q ∈ seen ∧ q ≤ largestOf seen ∧ largestOf seen - q < 256 := by
  by_cases some_seen : seen = []
  · subst some_seen
    have begun : t.hasReceived = false := mirrors.begun
    simp [isDuplicate,begun]
  · have begun := hasReceived_of_seen mirrors some_seen
    have duplicate : t.isDuplicate (UInt32.ofNat q) = t.getBit (UInt32.ofNat q) := by simp [isDuplicate,begun]
    rw [duplicate,getBit_eq begun,mirrors.largest]
    by_cases below : q ≤ largestOf seen
    · have offset := distance_back below (by omega)
      rw [offset]
      by_cases inside : largestOf seen - q < 256
      · have back : largestOf seen - (largestOf seen - q) = q := by omega
        rw [not_seqGt_of_le below (by omega),Bool.not_false,Bool.true_and,decide_eq_true inside,Bool.true_and,
          mirrors.bits some_seen _ inside,back]
        exact ⟨fun held => ⟨held.2,below,inside⟩,fun held => ⟨Nat.sub_le _ _,held.1⟩⟩
      · simp [inside]
    · have later := seqGt_of_lt (Nat.not_le.mp below) high
      rw [later]
      simp [below]

/-- The window refines the history: as long as each number is near the largest so far,
    the largest is known, and a number is a duplicate exactly when it was received and
    is one of the last 256 up to the largest. -/
theorem bitmap_refines (numbers : List ℕ) (near : Along (fun seen p => seen ++ [p]) Near [] numbers) :
    (run onPacketReceived {} (numbers.map UInt32.ofNat)).largestReceived = UInt32.ofNat (largestOf numbers) ∧
      ∀ q, q ≤ largestOf numbers + 2^31 → largestOf numbers ≤ q + 2^31 →
        ((run onPacketReceived {} (numbers.map UInt32.ofNat)).isDuplicate (UInt32.ofNat q) = true ↔
          q ∈ numbers ∧ q ≤ largestOf numbers ∧ largestOf numbers - q < 256) := by
  have start : Mirrors {} [] := ⟨rfl,rfl,fun some_seen => absurd rfl some_seen⟩
  have mirrors := mirrors_run start near
  exact ⟨mirrors.largest,fun q high low => isDuplicate_iff mirrors high low⟩

/-- Numbers around 2^32, out of order, and one that leaves the window. -/
theorem bitmap_refines_wrapped :
    let numbers := [2^32 - 2,2^32 + 1,2^32 - 1,2^32 + 254]
    let t := run onPacketReceived {} (numbers.map UInt32.ofNat)
    t.largestReceived = 254 ∧ t.isDuplicate (UInt32.ofNat (2^32 - 1)) = true ∧
      t.isDuplicate (UInt32.ofNat (2^32 - 2)) = false := by
  obtain ⟨largest,duplicate⟩ := bitmap_refines [2^32 - 2,2^32 + 1,2^32 - 1,2^32 + 254] (by decide)
  refine ⟨largest,?_,?_⟩
  · exact (duplicate (2^32 - 1) (by decide) (by decide)).mpr (by decide)
  · rw [← Bool.not_eq_true]
    exact fun again => absurd ((duplicate (2^32 - 2) (by decide) (by decide)).mp again) (by decide)

end Rom.Window
