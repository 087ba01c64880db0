import Mathlib.Data.List.GetD
import Rom.Bytes

/-!
Parity of byte strings of different lengths. A string goes on with zeros behind its
end, so strings are xored byte by byte whatever their lengths (`byteAt_foldl_xorInto`).
Xor is linear, and what occurs an even number of times drops out: the xor of all
strings of a group and of some of them again is that of the strings that came an even
number of times (`xorAll_xor_again`).
-/
namespace Rom.Parity

/-- The xor of what a function gives on a list. -/
def xorAll {ι : Type*} (l : List ι) (f : ι → UInt8) : UInt8 := (l.map f).foldr (· ^^^ ·) 0

/-- A string continued with zeros up to a length. -/
def pad (n : ℕ) (l : Bytes) : Bytes := l ++ List.replicate (n - l.length) 0

/-- A string xored into one that is at least as long. -/
def xorInto : Bytes → Bytes → Bytes
  | a :: acc, d :: data => (a ^^^ d) :: xorInto acc data
  | acc, _ => acc

/-- The length of the longest of some strings. -/
def longest (ls : List Bytes) : ℕ := ls.foldr (fun l n => max l.length n) 0

section
variable {ι : Type*} (l m : List ι) (f g : ι → UInt8)

@[simp] theorem xorAll_nil : xorAll [] f = 0 := rfl
@[simp] theorem xorAll_cons (i : ι) : xorAll (i :: l) f = f i ^^^ xorAll l f := rfl

theorem xorAll_append : xorAll (l ++ m) f = xorAll l f ^^^ xorAll m f := by
  induction l with
  | nil => simp
  | cons i l ih => rw [List.cons_append,xorAll_cons,ih,xorAll_cons,UInt8.xor_assoc]

theorem xorAll_xor : xorAll l (fun i => f i ^^^ g i) = xorAll l f ^^^ xorAll l g := by
  induction l with
  | nil => exact (UInt8.xor_self).symm
  | cons i l ih =>
    rw [xorAll_cons,ih,xorAll_cons,xorAll_cons]
    ac_rfl

theorem xorAll_zero : xorAll l (fun _ => 0) = 0 := by
  induction l with
  | nil => rfl
  | cons i l ih => rw [xorAll_cons,ih,UInt8.xor_self]

theorem xorAll_map {κ : Type*} (k : List κ) (h : κ → ι) : xorAll (k.map h) f = xorAll k (fun i => f (h i)) := by
  rw [xorAll,xorAll,List.map_map]
  rfl

variable [DecidableEq ι]

/-- What is zero everywhere else is what it is in one place. -/
theorem xorAll_single {l : List ι} (distinct : l.Nodup) {j : ι} (member : j ∈ l) (v : UInt8) :
    xorAll l (fun i => if i = j then v else 0) = v := by
  induction l with
  | nil => cases member
  | cons i l ih =>
    obtain ⟨other,rest⟩ := List.nodup_cons.mp distinct
    rw [xorAll_cons]
    rcases List.mem_cons.mp member with rfl | later
    · have nowhere : xorAll l (fun i => if i = j then v else 0) = xorAll l (fun _ => 0) := by
        unfold xorAll
        congr 1
        refine List.map_congr_left (fun i listed => if_neg ?_)
        rintro rfl
        exact other listed
      rw [if_pos rfl,nowhere,xorAll_zero,UInt8.xor_zero]
    · have here : i ≠ j := by
        rintro rfl
        exact other later
      rw [if_neg here,ih rest later,UInt8.zero_xor]

/-- Xoring some of the terms again takes out those that then came an odd number of times
    more. -/
theorem xorAll_xor_again {l : List ι} (distinct : l.Nodup) {again : List ι} (known : ∀ i ∈ again, i ∈ l) (f : ι → UInt8) :
    xorAll l f ^^^ xorAll again f = xorAll l (fun i => if again.count i % 2 = 0 then f i else 0) := by
  induction again with
  | nil => simp
  | cons j again ih =>
    obtain ⟨member,rest⟩ := List.forall_mem_cons.mp known
    have toggled : (fun i => if (j :: again).count i % 2 = 0 then f i else 0) =
        (fun i => (if again.count i % 2 = 0 then f i else 0) ^^^ if i = j then f j else 0) := by
      funext i
      by_cases here : i = j
      · subst here
        rw [List.count_cons_self,if_pos rfl]
        by_cases even : again.count i % 2 = 0
        · have odd : ¬ (again.count i + 1) % 2 = 0 := by omega
          rw [if_pos even,if_neg odd,UInt8.xor_self]
        · have next : (again.count i + 1) % 2 = 0 := by omega
          rw [if_neg even,if_pos next,UInt8.zero_xor]
      · rw [List.count_cons_of_ne (Ne.symm here),if_neg here,UInt8.xor_zero]
    rw [toggled,xorAll_xor,← ih rest,xorAll_single distinct member,xorAll_cons,UInt8.xor_comm (f j),UInt8.xor_assoc]

end

/-! ### Strings -/

theorem byteAt_of_le {l : Bytes} {i : ℕ} (past : l.length ≤ i) : byteAt l i = 0 := by
  rw [byteAt,List.getD_eq_default _ _ past]

/-- Zeros behind a string do not show. -/
theorem byteAt_zeros (l : Bytes) (z i : ℕ) : byteAt (l ++ List.replicate z 0) i = byteAt l i := by
  rcases Nat.lt_or_ge i l.length with inside | past
  · exact List.getD_append _ _ _ _ inside
  · rw [byteAt_of_le past,byteAt,List.getD_append_right _ _ _ _ past,List.getD_eq_getElem?_getD,List.getElem?_replicate]
    split
    · rfl
    · rfl

theorem byteAt_pad (n : ℕ) (l : Bytes) (i : ℕ) : byteAt (pad n l) i = byteAt l i := byteAt_zeros l _ i

theorem length_pad {n : ℕ} {l : Bytes} (short : l.length ≤ n) : (pad n l).length = n := by
  rw [pad,List.length_append,List.length_replicate]
  omega

/-- Strings of one length with the same bytes are equal. -/
theorem eq_of_bytes {a b : Bytes} (length : a.length = b.length) (bytes : ∀ i, byteAt a i = byteAt b i) : a = b := by
  refine List.ext_getElem length (fun i low high => ?_)
  have same := bytes i
  rw [byteAt,byteAt,List.getD_eq_getElem _ _ low,List.getD_eq_getElem _ _ high] at same
  exact same

@[simp] theorem length_xorInto (acc data : Bytes) : (xorInto acc data).length = acc.length := by
  induction acc generalizing data with
  | nil => cases data <;> rfl
  | cons a acc ih =>
    cases data with
    | nil => rfl
    | cons d data => simp [xorInto,ih]

theorem byteAt_xorInto {acc data : Bytes} (fits : data.length ≤ acc.length) (i : ℕ) :
    byteAt (xorInto acc data) i = byteAt acc i ^^^ byteAt data i := by
  induction acc generalizing data i with
  | nil =>
    have empty : data = [] := List.eq_nil_of_length_eq_zero (Nat.le_zero.mp fits)
    subst empty
    exact (UInt8.xor_self).symm
  | cons a acc ih =>
    cases data with
    | nil => simp [xorInto,byteAt_of_le]
    | cons d data =>
      cases i with
      | zero => rfl
      | succ i => exact ih (Nat.le_of_succ_le_succ fits) i

theorem length_foldl_xorInto (ls : List Bytes) (acc : Bytes) : (ls.foldl xorInto acc).length = acc.length := by
  induction ls generalizing acc with
  | nil => rfl
  | cons l ls ih => rw [List.foldl_cons,ih,length_xorInto]

theorem byteAt_foldl_xorInto {ls : List Bytes} {acc : Bytes} (fit : ∀ l ∈ ls, l.length ≤ acc.length) (i : ℕ) :
    byteAt (ls.foldl xorInto acc) i = byteAt acc i ^^^ xorAll ls (fun l => byteAt l i) := by
  induction ls generalizing acc with
  | nil => simp
  | cons l ls ih =>
    obtain ⟨first,rest⟩ := List.forall_mem_cons.mp fit
    rw [List.foldl_cons,ih (by simpa using rest),byteAt_xorInto first,xorAll_cons,UInt8.xor_assoc]

theorem le_longest {ls : List Bytes} {l : Bytes} (member : l ∈ ls) : l.length ≤ longest ls := by
  induction ls with
  | nil => cases member
  | cons m ls ih =>
    rcases List.mem_cons.mp member with rfl | later
    · exact Nat.le_max_left _ _
    · exact (ih later).trans (Nat.le_max_right _ _)

theorem longest_snoc (ls : List Bytes) (l : Bytes) : longest (ls ++ [l]) = max (longest ls) l.length := by
  induction ls with
  | nil => simp [longest]
  | cons m ls ih =>
    show max m.length (longest (ls ++ [l])) = max (max m.length (longest ls)) l.length
    rw [ih,max_assoc]

end Rom.Parity
