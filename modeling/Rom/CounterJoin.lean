import Rom.Skips
import Rom.Orderly

/-!
Merging counters. What a counter holds is a count for each node, on one side or on
two, and 0 for a node that it does not know; such counts are ordered node by node.
Merging bytes, whatever they are, joins the counts with those that the bytes carry
(`counts_merged`), so merges commute, do not repeat and never lose anything, and
the snapshot of another counter joins the counts of both (`merge_joins`). The list
behind the counts has one entry for each node.
-/
namespace Rom.CounterJoin
open Rom.Runs
open Rom.GCounter (largest encodeEntries nodesOf)
open Rom.PnCounter (Side half carriedOn)
open Rom.Skips (counts entriesIn counts_merge)

/-- The entries of a counter on a side; the grow-only one has only one list. -/
def entriesOn : Crdt → Side → List GCounterEntry
  | .gCounter c, _ => c.entries
  | .pnCounter c, side => (half side c).entries
  | _, _ => []

/-- The value is one that a new replica is led to by local changes, merges and
    deltas. -/
def Reached (c : Crdt) : Prop :=
  ∃ n type fresh actions, (StateRegistry.new n).createCrdt type = some fresh ∧ run Crdt.act fresh actions = c

/-- Merging is a join of counts. -/
structure Joins (c : Crdt) : Prop where
  commutes : ∀ a b, counts ((c.merge a).1.merge b).1 = counts ((c.merge b).1.merge a).1
  repeats : ∀ a, counts ((c.merge a).1.merge a).1 = counts (c.merge a).1
  grows : ∀ a, counts c ≤ counts (c.merge a).1
  snapshot : ∀ other, Reached other → other.typeOf = c.typeOf → (∀ side, (entriesOn other side).length ≤ 255) →
    counts (c.merge other.snapshot).1 = counts c ⊔ counts other

/-- The counts that bytes carry for a type. -/
def carriedCounts (type : CrdtType) (data : Bytes) (side : Side) (n : UInt16) : ℕ := largest (entriesIn type side data) n

theorem counts_merged (c : Crdt) (data : Bytes) : counts (c.merge data).1 = counts c ⊔ carriedCounts c.typeOf data := by
  funext side n
  exact counts_merge c data side n

/-- No two entries of a reached counter are of one node. -/
theorem nodup_entriesOn {c : Crdt} (orderly : Orderly c) (side : Side) : (nodesOf (entriesOn c side)).Nodup := by
  cases c with
  | lwwRegister r => exact List.nodup_nil
  | gCounter c =>
    obtain ⟨S,sound⟩ := orderly
    exact sound.distinct
  | pnCounter c =>
    obtain ⟨S,sound⟩ := orderly side
    exact sound.distinct
  | orSet s => exact List.nodup_nil

theorem orderly_of_reached {c : Crdt} (reached : Reached c) : Orderly c := by
  obtain ⟨n,type,fresh,actions,created,rfl⟩ := reached
  exact Orderly.reached created actions

/-- The snapshot of a counter within the limit of its number carries its entries. -/
theorem entriesIn_snapshot {c : Crdt} (few : ∀ side, (entriesOn c side).length ≤ 255) (side : Side) :
    entriesIn c.typeOf side c.snapshot = entriesOn c side := by
  cases c with
  | lwwRegister r => rfl
  | gCounter c => exact GCounter.carriedEntries_encode_of_lt (Nat.lt_succ_of_le (few side))
  | pnCounter c =>
    have up : c.p.entries.length < 2^8 := Nat.lt_succ_of_le (few .up)
    have down : c.n.entries.length < 2^8 := Nat.lt_succ_of_le (few .down)
    show carriedOn side (encodeEntries c.p.entries ++ encodeEntries c.n.entries) = _
    rw [PnCounter.carriedOn_encode up down]
    cases side with
    | up => rfl
    | down => rfl
  | orSet s => rfl

theorem counts_eq_countIn (c : Crdt) (side : Side) (n : UInt16) :
    counts c side n = GCounter.countIn (entriesOn c side) n := by
  cases c <;> rfl

theorem carriedCounts_snapshot {c : Crdt} (orderly : Orderly c) (few : ∀ side, (entriesOn c side).length ≤ 255) :
    carriedCounts c.typeOf c.snapshot = counts c := by
  funext side n
  rw [carriedCounts,entriesIn_snapshot few,GCounter.largest_eq_countIn (nodup_entriesOn orderly side),counts_eq_countIn]

/-- Merging joins counts, and a counter has one entry for each node. (A value of
    another type counts nothing.) -/
theorem merge_joins (c : Crdt) : Joins c ∧ (Reached c → ∀ side, (nodesOf (entriesOn c side)).Nodup) := by
  refine ⟨⟨?_,?_,?_,?_⟩,?_⟩
  · intro a b
    rw [counts_merged,counts_merged,counts_merged,counts_merged,Crdt.typeOf_merge,Crdt.typeOf_merge,sup_right_comm]
  · intro a
    rw [counts_merged,counts_merged,Crdt.typeOf_merge,sup_assoc,sup_idem]
  · intro a
    rw [counts_merged]
    exact le_sup_left
  · intro other reached same few
    rw [counts_merged,← same,carriedCounts_snapshot (orderly_of_reached reached) few]
  · intro reached side
    exact nodup_entriesOn (orderly_of_reached reached) side

end Rom.CounterJoin
