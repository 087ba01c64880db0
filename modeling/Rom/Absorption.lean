import Rom.Echoes
import Rom.Reports

/-!
Payloads that change nothing. A merge leaves a value as it is exactly if the payload
brings nothing that the value does not have (`merge_unchanged_iff`): no later stamp,
no larger count; and for a set no tombstone of one of its tags, no new tag that is
not tombstoned, and no tag of its own numbered past its counter.
-/
namespace Rom.Absorption
open Std Rom.Runs
open Rom.GCounter (Has carriedEntries)
open Rom.PnCounter (Side half carriedOn)
open Rom.OrSet (Trim maxSeq allTags)
open Rom.Reports (Removes Adds)
open Rom.Echoes (Numbered)

/-- The payload brings nothing that the value does not have. -/
def Absorbed : Crdt → Bytes → Prop
  | .lwwRegister r, data => LwwRegister.wireStamp data ≤ r.stamp
  | .gCounter c, data => ∀ e ∈ carriedEntries data, Has c e
  | .pnCounter c, data => ∀ side, ∀ e ∈ carriedOn side data, Has (half side c) e
  | .orSet s, data => ∀ i, OrSet.decodeEntries data = some i →
      Trim s.entries ∧ ¬ Removes s i ∧ ¬ Adds s i ∧ ∀ elem tag, tag ∈ tagsOf i.entries elem → Numbered s tag

theorem register_unchanged_iff (r : LwwRegister) (data : Bytes) :
    (r.merge data).1 = r ↔ LwwRegister.wireStamp data ≤ r.stamp := by
  constructor
  · intro same
    have stamp := LwwRegister.stamp_merge r data
    rw [same] at stamp
    exact stamp ▸ le_max_right _ _
  · exact LwwRegister.merge_of_le

theorem pnCounter_unchanged_iff (c : PnCounter) (data : Bytes) :
    (c.merge data).1 = c ↔ ∀ side, ∀ e ∈ carriedOn side data, Has (half side c) e := by
  have sides : (∀ side, half side (c.merge data).1 = half side c) ↔ (c.merge data).1 = c := by
    constructor
    · intro same
      exact PnCounter.mk.injEq .. ▸ ⟨same .up,same .down⟩
    · exact fun same side => by rw [same]
  rw [← sides]
  refine forall_congr' (fun side => ?_)
  rw [PnCounter.half_merge]
  exact GCounter.mergeEntries_unchanged_iff (half side c,false) _

theorem orSet_unchanged_iff (s : OrSet) (i : Decoded) :
    (s.mergeDecoded i).1 = s ↔
      Trim s.entries ∧ ¬ Removes s i ∧ ¬ Adds s i ∧ ∀ elem tag, tag ∈ tagsOf i.entries elem → Numbered s tag := by
  have numbered : maxSeq s.nodeId s.seq (allTags i.entries) = s.seq ↔
      ∀ elem tag, tag ∈ tagsOf i.entries elem → Numbered s tag := by
    have le := OrSetRuns.seq_le_maxSeq s.nodeId s.seq (allTags i.entries)
    constructor
    · intro same elem tag member
      exact ((OrSet.maxSeq_le_iff _ _ _ _).mp (UInt32.le_of_eq same)).2 tag ((OrSet.mem_allTags _ _).mpr ⟨elem,member⟩)
    · intro all
      refine UInt32.le_antisymm ((OrSet.maxSeq_le_iff _ _ _ _).mpr ⟨UInt32.le_refl _,fun tag member => ?_⟩) le
      obtain ⟨elem,member⟩ := (OrSet.mem_allTags _ _).mp member
      exact all elem tag member
  have parts : (s.mergeDecoded i).1 = s ↔
      (s.mergeDecoded i).1.entries = s.entries ∧ maxSeq s.nodeId s.seq (allTags i.entries) = s.seq := by
    constructor
    · intro same
      refine ⟨by rw [same],?_⟩
      have merged := OrSet.mergeDecoded_eq s i
      rw [same] at merged
      exact (congrArg OrSet.seq merged).symm
    · rintro ⟨entries,seq⟩
      exact (OrSet.mergeDecoded_eq s i).trans (by rw [entries,seq])
  rw [parts,numbered]
  constructor
  · rintro ⟨entries,all⟩
    have trim : Trim s.entries := entries ▸ OrSet.trim_mergeDecoded s i
    obtain ⟨keeps,brings⟩ := not_or.mp (fun some => (Reports.entries_changed_iff trim).mpr some entries)
    exact ⟨trim,keeps,brings,all⟩
  · rintro ⟨trim,keeps,brings,all⟩
    refine ⟨?_,all⟩
    by_contra changed
    rcases (Reports.entries_changed_iff trim).mp changed with removes | adds
    · exact keeps removes
    · exact brings adds

/-- A payload changes nothing exactly if it brings nothing new. -/
theorem merge_unchanged_iff (c : Crdt) (data : Bytes) : (c.merge data).1 = c ↔ Absorbed c data := by
  cases c with
  | lwwRegister r =>
    show Crdt.lwwRegister (r.merge data).1 = .lwwRegister r ↔ _
    rw [Crdt.lwwRegister.injEq]
    exact register_unchanged_iff r data
  | gCounter c =>
    show Crdt.gCounter (c.merge data).1 = .gCounter c ↔ ∀ e ∈ carriedEntries data, Has c e
    rw [Crdt.gCounter.injEq,GCounter.merge_eq]
    exact GCounter.mergeEntries_unchanged_iff (c,false) _
  | pnCounter c =>
    show Crdt.pnCounter (c.merge data).1 = .pnCounter c ↔ _
    rw [Crdt.pnCounter.injEq]
    exact pnCounter_unchanged_iff c data
  | orSet s =>
    show Crdt.orSet (s.merge data).1 = .orSet s ↔ ∀ i, OrSet.decodeEntries data = some i → _
    rw [Crdt.orSet.injEq,OrSet.merge]
    cases OrSet.decodeEntries data with
    | none => simp
    | some i =>
      simp only [Option.some.injEq,forall_eq']
      exact orSet_unchanged_iff s i

end Rom.Absorption
