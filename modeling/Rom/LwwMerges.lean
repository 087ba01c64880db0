import Rom.FirstMax
import Rom.LwwRegister

/-!
Merging any number of byte strings into a register. A register holds a write, a
value under a stamp, and a string with room for a stamp carries one; strings that
are too short carry none. The register ends with the first write of the largest
stamp (`held_mergeAll`), so where equal stamps come with equal values neither the
order of the strings nor their repetition matters (`merges_first_max`).
-/
namespace Rom.LwwMerges
open LwwRegister FirstMax

/-- A stamp and the value written under it. -/
abbrev Write := Stamp × Bytes

/-- The write that a register holds. -/
def held (r : LwwRegister) : Write := (r.stamp,r.value)

/-- The write that bytes carry, if there are enough of them. -/
def carried (data : Bytes) : Option Write :=
  if data.length < headerSize then none
  else some (stampOf (readU32 data) (readU16 (data.drop 4)),data.drop headerSize)

def mergeAll (r : LwwRegister) (ds : List Bytes) : LwwRegister := ds.foldl (fun r d => (r.merge d).1) r

/-- The write of the register and those of the strings, in order. -/
def writes (r : LwwRegister) (ds : List Bytes) : List Write := held r :: ds.filterMap carried

/-- Equal stamps come with equal values. -/
def OneValue (ws : List Write) : Prop := ∀ w ∈ ws, ∀ w' ∈ ws, w.1 = w'.1 → w.2 = w'.2

theorem held_merge (r : LwwRegister) (data : Bytes) :
    held (r.merge data).1 = (carried data).elim (held r) (better Prod.fst (held r)) := by
  rw [carried]
  by_cases short : data.length < headerSize
  · rw [if_pos short,Option.elim_none,merge,if_pos short]
  · have stamp : wireStamp data = stampOf (readU32 data) (readU16 (data.drop 4)) := if_neg short
    rw [if_neg short,Option.elim_some,better,← stamp]
    rcases merge_cases r data with ⟨same,le⟩ | ⟨_,lt,copied⟩
    · have notAbove : ¬ (held r).1 < (wireStamp data,data.drop headerSize).1 := not_lt.mpr le
      rw [same,if_neg notAbove]
    · have above : (held r).1 < (wireStamp data,data.drop headerSize).1 := lt
      rw [copied,if_pos above,stamp]
      rfl

theorem mergeAll_cons (r : LwwRegister) (d : Bytes) (ds : List Bytes) :
    mergeAll r (d :: ds) = mergeAll (r.merge d).1 ds := rfl

theorem held_mergeAll (r : LwwRegister) (ds : List Bytes) :
    held (mergeAll r ds) = firstMax Prod.fst (held r) (ds.filterMap carried) := by
  induction ds generalizing r with
  | nil => rfl
  | cons d ds ih =>
    rw [mergeAll_cons,ih,held_merge]
    cases found : carried d with
    | none => rw [List.filterMap_cons_none found,Option.elim_none]
    | some w => rw [List.filterMap_cons_some found,firstMax_cons,Option.elim_some]

theorem dirty_merge (r : LwwRegister) (data : Bytes) : (r.merge data).1.dirty = r.dirty := by
  rcases merge_cases r data with ⟨same,_⟩ | ⟨_,_,copied⟩
  · rw [same]
  · rw [copied]

theorem dirty_mergeAll (r : LwwRegister) (ds : List Bytes) : (mergeAll r ds).dirty = r.dirty := by
  induction ds generalizing r with
  | nil => rfl
  | cons d ds ih => rw [mergeAll_cons,ih,dirty_merge]

/-- Registers are equal that hold the same write and have the same mark. -/
theorem eq_of_held {r r' : LwwRegister} (same : held r = held r') (dirty : r.dirty = r'.dirty) : r = r' := by
  obtain ⟨value,timestamp,nodeId,mark⟩ := r
  obtain ⟨value',timestamp',nodeId',mark'⟩ := r'
  obtain ⟨stamps,values⟩ := Prod.mk.inj same
  obtain ⟨times,nodes⟩ := stampOf_injective stamps
  cases times
  cases nodes
  cases values
  cases dirty
  rfl

/-- After any strings the stamp is the largest, and the value is that of the first
    write with that stamp. Where equal stamps come with equal values the same strings
    in another order or number lead to the same register. -/
theorem merges_first_max (r : LwwRegister) (ds : List Bytes) :
    (∀ w ∈ writes r ds, w.1 ≤ (mergeAll r ds).stamp) ∧
      (writes r ds).find? (fun w => w.1 = (mergeAll r ds).stamp) = some ((mergeAll r ds).stamp,(mergeAll r ds).value) ∧
      (OneValue (writes r ds) → ∀ es : List Bytes, (∀ d, d ∈ es ↔ d ∈ ds) → mergeAll r es = mergeAll r ds) := by
  have stamp : (mergeAll r ds).stamp = (firstMax Prod.fst (held r) (ds.filterMap carried)).1 := by
    rw [← held_mergeAll]
    rfl
  refine ⟨?_,?_,?_⟩
  · rw [stamp]
    exact key_le_firstMax Prod.fst (held r) (ds.filterMap carried)
  · have found := find_firstMax Prod.fst (held r) (ds.filterMap carried)
    rw [← held_mergeAll] at found
    exact found
  · intro unique es same
    have listed : ∀ w, w ∈ writes r ds ↔ w ∈ writes r es := by
      intro w
      simp only [writes,List.mem_cons,List.mem_filterMap,same]
    refine eq_of_held ?_ ((dirty_mergeAll r es).trans (dirty_mergeAll r ds).symm)
    rw [held_mergeAll,held_mergeAll]
    refine (firstMax_congr Prod.fst listed fun w member w' member' stamps => ?_).symm
    exact Prod.ext stamps (unique w member w' member' stamps)

end Rom.LwwMerges
