import Rom.Replicas
import Rom.CounterWire
import Rom.OrSetRuns

/-!
What every replica keeps of its value, whatever is done with it: a counter has one
entry for each node, its own among them, and a set lists no element without tags.
-/
namespace Rom
open Rom.Runs
open Rom.PnCounter (Side half)
open Rom.OrSet (Trim)

namespace GCounter

/-- One entry for each node, whatever nodes they are. -/
def Distinct (c : GCounter) : Prop := ∃ S : Finset UInt16, Sound S c

theorem distinct_increment {c : GCounter} (distinct : Distinct c) (amount : UInt64) : Distinct (c.increment amount) := by
  obtain ⟨S,sound⟩ := distinct
  exact ⟨S,sound_increment sound amount⟩

theorem distinct_mergeEntries {c : GCounter} (distinct : Distinct c) (l : List GCounterEntry) :
    Distinct (mergeEntries (c,false) l).1 := by
  obtain ⟨S,sound⟩ := distinct
  refine ⟨S ∪ (nodesOf l).toFinset,sound_mergeEntries (sound_mono sound Finset.subset_union_left) ?_⟩
  intro e member
  exact Finset.mem_union_right _ (List.mem_toFinset.mpr (List.mem_map.mpr ⟨e,member,rfl⟩))

theorem distinct_dirty {c : GCounter} (distinct : Distinct c) (dirty : Bool) : Distinct { c with dirty := dirty } := by
  obtain ⟨S,sound⟩ := distinct
  exact ⟨S,sound.distinct,sound.within,sound.own⟩

theorem distinct_new (n : UInt16) : Distinct (.new n) := ⟨{n},sound_new (Finset.mem_singleton.mpr rfl)⟩

theorem distinct_merge {c : GCounter} (distinct : Distinct c) (data : Bytes) : Distinct (c.merge data).1 := by
  rw [merge_eq]
  exact distinct_mergeEntries distinct _

end GCounter

open GCounter (Distinct distinct_new distinct_merge distinct_mergeEntries distinct_increment distinct_dirty)

/-- The value is one that local changes and merges lead to. -/
def Orderly : Crdt → Prop
  | .lwwRegister _ => True
  | .gCounter c => Distinct c
  | .pnCounter c => ∀ side, Distinct (half side c)
  | .orSet s => Trim s.entries ∧ Trim s.pendingAdds

namespace Orderly

theorem new {n : UInt16} {type : CrdtType} {c : Crdt} (created : (StateRegistry.new n).createCrdt type = some c) :
    Orderly c := by
  match type, created with
  | .lwwRegister, rfl => trivial
  | .gCounter, rfl => exact distinct_new n
  | .pnCounter, rfl =>
    intro side
    cases side with
    | up => exact distinct_new n
    | down => exact distinct_new n
  | .orSet, rfl => exact ⟨OrSet.trim_empty,OrSet.trim_empty⟩

theorem both {c : PnCounter} (up : Distinct c.p) (down : Distinct c.n) : Orderly (.pnCounter c) := by
  intro side
  cases side with
  | up => exact up
  | down => exact down

theorem merge {c : Crdt} (orderly : Orderly c) (data : Bytes) : Orderly (c.merge data).1 := by
  cases c with
  | lwwRegister r => trivial
  | gCounter c => exact distinct_merge orderly data
  | pnCounter c =>
    intro side
    rw [PnCounter.half_merge]
    exact distinct_mergeEntries (orderly side) _
  | orSet s =>
    obtain ⟨_,_,_,adds,_⟩ := OrSetRuns.merge_rest s data
    exact ⟨OrSet.trim_merge orderly.1 data,adds ▸ orderly.2⟩

theorem mergeAll {c : Crdt} (orderly : Orderly c) (payloads : List Bytes) : Orderly (c.mergeAll payloads) := by
  induction payloads generalizing c with
  | nil => exact orderly
  | cons data payloads ih => exact ih (orderly.merge data)

theorem delta {c : Crdt} (orderly : Orderly c) : Orderly c.delta.2 := by
  cases c with
  | lwwRegister r => trivial
  | gCounter c =>
    show Distinct c.delta.2
    rw [GCounter.delta_state]
    exact distinct_dirty orderly false
  | pnCounter c =>
    refine both ?_ ?_
    · show Distinct (PnCounter.deltaHalf c.p).2
      rw [GCounter.deltaHalf_state]
      exact distinct_dirty (orderly .up) false
    · show Distinct (PnCounter.deltaHalf c.n).2
      rw [GCounter.deltaHalf_state]
      exact distinct_dirty (orderly .down) false
  | orSet s =>
    show Orderly (.orSet s.delta.2)
    rw [OrSet.delta]
    split
    · exact orderly
    · exact ⟨orderly.1,OrSet.trim_empty⟩

theorem orSet_remove {s : OrSet} (orderly : Orderly (.orSet s)) (elem : Bytes) : Orderly (.orSet (s.remove elem).1) := by
  obtain ⟨_,_,adds⟩ := OrSetRuns.remove_rest s elem
  refine ⟨?_,adds ▸ orderly.2⟩
  rcases OrSetRuns.remove_cases s elem with ⟨same,_⟩ | removed
  · rw [same]
    exact orderly.1
  · rw [removed]
    exact OrSet.trim_erase orderly.1 elem

theorem change {c : Crdt} (orderly : Orderly c) (change : Change) : Orderly (c.change change) := by
  cases c with
  | lwwRegister r => cases change <;> trivial
  | gCounter c =>
    cases change with
    | increment amount => exact distinct_increment orderly amount
    | _ => exact orderly
  | pnCounter c =>
    cases change with
    | increment amount => exact both (distinct_increment (orderly .up) amount) (orderly .down)
    | decrement amount => exact both (orderly .up) (distinct_increment (orderly .down) amount)
    | _ => exact orderly
  | orSet s =>
    cases change with
    | add elem => exact ⟨OrSet.trim_add orderly.1 elem,OrSet.trim_insertTag orderly.2 elem s.nextTag⟩
    | remove elem => exact orSet_remove orderly elem
    | _ => exact orderly

theorem act {c : Crdt} (orderly : Orderly c) (action : Action) : Orderly (c.act action) := by
  cases action with
  | change change => exact orderly.change change
  | delta => exact orderly.delta
  | snapshot => exact orderly
  | merge data => exact orderly.merge data

/-- Whatever is done with a replica, its value is orderly. -/
theorem reached {n : UInt16} {type : CrdtType} {c : Crdt} (created : (StateRegistry.new n).createCrdt type = some c)
    (actions : List Action) : Orderly (run Crdt.act c actions) :=
  run_invariant (fun _ action orderly => orderly.act action) (new created)

end Orderly
end Rom
