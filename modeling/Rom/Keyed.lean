import Mathlib.Data.List.Nodup
import Mathlib.Data.List.Perm.Basic

/-!
Lists of entries that have keys. A lookup takes the first entry of a key, and a
change goes to that entry. A change that keeps the keys is seen by the lookup of its
key only (`find_modify`). Where no two entries have one key, an entry is found by its
key wherever it stands (`find_eq_some_iff`, `find_perm`).
-/
namespace Rom.Keyed
variable {α κ : Type*} [DecidableEq κ] (key : α → κ)

/-! ### Lookups -/

theorem find_eq_none_iff (l : List α) (n : κ) : l.find? (fun a => key a == n) = none ↔ n ∉ l.map key := by
  rw [List.find?_eq_none]
  simp only [List.mem_map,not_exists,not_and,beq_iff_eq]

variable {key} in
theorem of_find {l : List α} {n : κ} {a : α} (found : l.find? (fun a => key a == n) = some a) : a ∈ l ∧ key a = n :=
  ⟨List.mem_of_find?_eq_some found,by simpa using List.find?_some found⟩

theorem find_eq_some_iff {l : List α} (distinct : (l.map key).Nodup) (n : κ) (a : α) :
    l.find? (fun a => key a == n) = some a ↔ a ∈ l ∧ key a = n := by
  refine ⟨of_find,?_⟩
  rintro ⟨member,own⟩
  cases found : l.find? (fun a => key a == n) with
  | none => exact absurd (own ▸ List.mem_map_of_mem member) ((find_eq_none_iff key l n).mp found)
  | some b =>
    obtain ⟨listed,same⟩ := of_find found
    rw [List.inj_on_of_nodup_map distinct listed member (same.trans own.symm)]

theorem find_perm {l m : List α} (perm : l.Perm m) (distinct : (m.map key).Nodup) (n : κ) :
    l.find? (fun a => key a == n) = m.find? (fun a => key a == n) := by
  have distinct' : (l.map key).Nodup := (perm.map key).nodup_iff.mpr distinct
  ext a
  rw [find_eq_some_iff key distinct',find_eq_some_iff key distinct,perm.mem_iff]

theorem find_append {l : List α} {a : α} (absent : key a ∉ l.map key) (n : κ) :
    (l ++ [a]).find? (fun a => key a == n) = if key a = n then some a else l.find? (fun a => key a == n) := by
  rw [List.find?_append,List.find?_singleton]
  by_cases own : key a = n
  · rw [if_pos own,(find_eq_none_iff key l n).mpr (own ▸ absent),if_pos (beq_iff_eq.mpr own),Option.none_or]
  · rw [if_neg own,if_neg (by simpa using own),Option.or_none]

/-! ### Changes -/

theorem modify_cons (a : α) (l : List α) (n : κ) (f : α → α) :
    (a :: l).modify ((a :: l).findIdx (fun a => key a == n)) f =
      if key a = n then f a :: l else a :: l.modify (l.findIdx (fun a => key a == n)) f := by
  rw [List.findIdx_cons]
  by_cases own : key a = n
  · rw [if_pos own,beq_iff_eq.mpr own]
    rfl
  · rw [if_neg own,beq_false_of_ne own]
    rfl

theorem modify_of_not_mem {l : List α} {n : κ} (absent : n ∉ l.map key) (f : α → α) :
    l.modify (l.findIdx (fun a => key a == n)) f = l := by
  induction l with
  | nil => rfl
  | cons a l ih =>
    rw [List.map_cons,List.mem_cons,not_or] at absent
    rw [modify_cons,if_neg (Ne.symm absent.1),ih absent.2]

theorem modify_append {l : List α} {n : κ} {a : α} (absent : n ∉ l.map key) (own : key a = n) (f : α → α) :
    (l ++ [a]).modify ((l ++ [a]).findIdx (fun a => key a == n)) f = l ++ [f a] := by
  induction l with
  | nil =>
    rw [List.nil_append,modify_cons,if_pos own]
    rfl
  | cons b l ih =>
    rw [List.map_cons,List.mem_cons,not_or] at absent
    rw [List.cons_append,modify_cons,if_neg (Ne.symm absent.1),ih absent.2]
    rfl

section
variable {f : α → α} (keeps : ∀ a, key (f a) = key a)
include keeps

theorem map_modify (l : List α) (n : κ) : (l.modify (l.findIdx (fun a => key a == n)) f).map key = l.map key := by
  induction l with
  | nil => rfl
  | cons a l ih =>
    rw [modify_cons]
    split
    · exact congrArg (· :: l.map key) (keeps a)
    · exact congrArg (key a :: ·) ih

theorem find_modify (l : List α) (n m : κ) :
    (l.modify (l.findIdx (fun a => key a == n)) f).find? (fun a => key a == m) =
      if m = n then (l.find? (fun a => key a == m)).map f else l.find? (fun a => key a == m) := by
  induction l with
  | nil => simp
  | cons a l ih =>
    rw [modify_cons]
    by_cases own : key a = n
    · rw [if_pos own]
      by_cases same : m = n
      · rw [if_pos same,List.find?_cons_of_pos (by simp [keeps,own,same]),List.find?_cons_of_pos (by simp [own,same])]
        rfl
      · have other : ¬ key a = m := fun eq => same (eq.symm.trans own)
        rw [if_neg same,List.find?_cons_of_neg (by simp [keeps,other]),List.find?_cons_of_neg (by simp [other])]
    · rw [if_neg own]
      by_cases here : key a = m
      · have apart : ¬ m = n := fun eq => own (here.trans eq)
        rw [if_neg apart,List.find?_cons_of_pos (by simp [here]),List.find?_cons_of_pos (by simp [here])]
      · rw [List.find?_cons_of_neg (by simp [here]),List.find?_cons_of_neg (by simp [here]),ih]

theorem filter_modify (l : List α) (n : κ) :
    (l.modify (l.findIdx (fun a => key a == n)) f).filter (fun a => key a != n) = l.filter (fun a => key a != n) := by
  induction l with
  | nil => rfl
  | cons a l ih =>
    rw [modify_cons]
    split
    · next own => rw [List.filter_cons_of_neg (by simp [keeps,own]),List.filter_cons_of_neg (by simp [own])]
    · next other => rw [List.filter_cons_of_pos (by simp [other]),List.filter_cons_of_pos (by simp [other]),ih]

end
end Rom.Keyed
