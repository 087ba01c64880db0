import Mathlib.Order.Lattice
import Mathlib.Data.List.Basic

/-!
The first maximum. A scan keeps the best element so far and replaces it by one that
is strictly better. What it ends with is an element whose key is the largest, and
the first of those (`find_firstMax`); which elements there are decides on it, but
for elements of one key (`firstMax_congr`).
-/
namespace Rom.FirstMax
variable {α κ : Type*} [LinearOrder κ] (key : α → κ)

/-- The better of two; the first one if they are alike. -/
def better (a b : α) : α := if key a < key b then b else a

/-- The best of an element and those behind it. -/
def firstMax (a : α) (l : List α) : α := l.foldl (better key) a

theorem firstMax_cons (a b : α) (l : List α) : firstMax key a (b :: l) = firstMax key (better key a b) l := rfl

theorem key_better (a b : α) : key (better key a b) = max (key a) (key b) := by
  rw [better]
  split
  · next less => rw [max_eq_right less.le]
  · next notLess => rw [max_eq_left (not_lt.mp notLess)]

theorem better_cases (a b : α) : better key a b = a ∨ better key a b = b := by
  rw [better]
  split
  · exact .inr rfl
  · exact .inl rfl

theorem key_le_firstMax (a : α) (l : List α) : ∀ b ∈ a :: l, key b ≤ key (firstMax key a l) := by
  induction l generalizing a with
  | nil =>
    intro b member
    rw [List.mem_singleton.mp member]
    exact le_rfl
  | cons c l ih =>
    have above : max (key a) (key c) ≤ key (firstMax key a (c :: l)) := by
      rw [← key_better]
      exact ih (better key a c) _ List.mem_cons_self
    intro b member
    rcases List.mem_cons.mp member with rfl | member
    · exact (le_max_left _ _).trans above
    · rcases List.mem_cons.mp member with rfl | member
      · exact (le_max_right _ _).trans above
      · exact ih _ b (List.mem_cons_of_mem _ member)

theorem firstMax_mem (a : α) (l : List α) : firstMax key a l ∈ a :: l := by
  induction l generalizing a with
  | nil => exact List.mem_cons_self
  | cons c l ih =>
    rw [firstMax_cons]
    rcases List.mem_cons.mp (ih (better key a c)) with best | member
    · rw [best]
      rcases better_cases key a c with first | second
      · rw [first]
        exact List.mem_cons_self
      · rw [second]
        exact List.mem_cons_of_mem _ List.mem_cons_self
    · exact List.mem_cons_of_mem _ (List.mem_cons_of_mem _ member)

/-- The scan ends with the first element of the largest key. -/
theorem find_firstMax (a : α) (l : List α) :
    (a :: l).find? (fun b => key b = key (firstMax key a l)) = some (firstMax key a l) := by
  induction l generalizing a with
  | nil => simp [firstMax]
  | cons c l ih =>
    have found := ih (better key a c)
    have reached := key_le_firstMax key a (c :: l)
    rw [← firstMax_cons] at found
    generalize firstMax key a (c :: l) = best at found reached ⊢
    by_cases first : key a = key best
    · -- an element behind that is as good does not replace it
      have kept : better key a c = a := by
        rw [better,if_neg]
        rw [first]
        exact not_lt.mpr (reached c (List.mem_cons_of_mem _ List.mem_cons_self))
      rw [kept,List.find?_cons_of_pos (by simpa using first)] at found
      rw [List.find?_cons_of_pos (by simpa using first),found]
    · rw [List.find?_cons_of_neg (by simpa using first)]
      rcases better_cases key a c with kept | replaced
      · have worse : key c ≠ key best := by
          intro same
          have above : key a < key c := lt_of_le_of_ne (same ▸ reached a List.mem_cons_self) (same ▸ first)
          rw [better,if_pos above] at kept
          exact first (kept ▸ same)
        rw [kept,List.find?_cons_of_neg (by simpa using first)] at found
        rw [List.find?_cons_of_neg (by simpa using worse),found]
      · rw [← replaced,found]

/-- Elements of one key being equal, the first maximum depends only on which
    elements there are. -/
theorem firstMax_congr {a : α} {l m : List α} (same : ∀ b, b ∈ a :: l ↔ b ∈ a :: m)
    (unique : ∀ b ∈ a :: l, ∀ c ∈ a :: l, key b = key c → b = c) : firstMax key a l = firstMax key a m := by
  have left := firstMax_mem key a l
  have right := (same _).mpr (firstMax_mem key a m)
  refine unique _ left _ right (le_antisymm ?_ ?_)
  · exact key_le_firstMax key a m _ ((same _).mp left)
  · exact key_le_firstMax key a l _ right

end Rom.FirstMax
