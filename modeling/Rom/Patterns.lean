import Mathlib.Data.List.Forall2

/-!
Patterns with a wildcard in single places. A pattern is a word over the same
letters, one of which, the star, stands for every letter. A pattern is a word of
its own (`matches_refl`), and what matches a pattern matches every pattern that
one matches (`Matches.trans`). Where a pattern matches only words that another one
matches, one word without stars is enough to see that it matches the other
(`matches_of_fill`).
-/
namespace Rom.Patterns
variable {α : Type*} {star : α}

/-- The word has the pattern's letters wherever that has no star. -/
def Matches (star : α) (word pattern : List α) : Prop :=
  List.Forall₂ (fun letter own => letter = star ∨ letter = own) pattern word

theorem matches_refl (word : List α) : Matches star word word :=
  List.forall₂_same.mpr (fun _ _ => .inr rfl)

theorem Matches.length_eq {word pattern : List α} (same : Matches star word pattern) : pattern.length = word.length :=
  List.Forall₂.length_eq same

theorem Matches.trans {word inner outer : List α} (within : Matches star word inner) (wider : Matches star inner outer) :
    Matches star word outer := by
  induction wider generalizing word with
  | nil => exact within
  | cons head _ ih =>
    cases within with
    | cons first rest =>
      refine .cons ?_ (ih rest)
      rcases head with wild | same
      · exact .inl wild
      · exact same ▸ first

/-- Matching read off two lists of one length. -/
theorem matches_iff_zip [BEq α] [LawfulBEq α] (word pattern : List α) :
    Matches star word pattern ↔
      pattern.length = word.length ∧ (pattern.zip word).all (fun p => p.1 == star || p.1 == p.2) = true := by
  rw [Matches,List.forall₂_iff_zip,List.all_eq_true]
  simp

section
variable [DecidableEq α]

/-- The pattern with a letter in place of its stars. -/
def fill (star letter : α) (pattern : List α) : List α := pattern.map (fun own => if own = star then letter else own)

theorem matches_fill (letter : α) (pattern : List α) : Matches star (fill star letter pattern) pattern := by
  rw [Matches,fill,List.forall₂_map_right_iff]
  refine List.forall₂_same.mpr (fun own _ => ?_)
  by_cases wild : own = star
  · exact .inl wild
  · exact .inr (if_neg wild).symm

theorem not_mem_fill {letter : α} (concrete : letter ≠ star) (pattern : List α) : star ∉ fill star letter pattern := by
  rw [fill,List.mem_map]
  rintro ⟨own,_,same⟩
  by_cases wild : own = star
  · exact concrete ((if_pos wild).symm.trans same)
  · exact wild ((if_neg wild).symm.trans same)

/-- A letter that the other pattern does not have stands for every letter. -/
theorem matches_of_fill {letter : α} {inner outer : List α} (fresh : letter ∉ outer)
    (same : Matches star (fill star letter inner) outer) : Matches star inner outer := by
  rw [Matches,fill,List.forall₂_map_right_iff] at same
  induction same with
  | nil => exact .nil
  | @cons own other outer inner head _ ih =>
    rw [List.mem_cons,not_or] at fresh
    refine .cons ?_ (ih fresh.2)
    rcases head with wild | equal
    · exact .inl wild
    · by_cases wild : other = star
      · rw [if_pos wild] at equal
        exact absurd equal.symm fresh.1
      · rw [if_neg wild] at equal
        exact .inr equal

end
end Rom.Patterns
