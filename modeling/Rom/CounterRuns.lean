import Rom.CounterWire
import Rom.Counting
import Mathlib.Algebra.BigOperators.Group.Finset.Basic
import Mathlib.Algebra.Order.BigOperators.Group.Finset

/-!
Counters that exchange deltas. A grow-only counter hands out its own entry; the
counter that goes both ways hands out, for each half, its own entry when the half
has changed and all entries when it has not. Both count in the sense of
`Counting`, as long as all entries of a half fit the count byte and no count
wraps (`gTally_lawful`, `pnTally_lawful`), so that a replica which the last count
of every other one has reached has the exact total (`counters_exact`).
-/
namespace Rom.CounterRuns
open Rom.Runs Rom.Replication Rom.Counting GCounter
open Rom.PnCounter (Side half carriedOn)

variable {S : Finset UInt16}

/-! ### Values -/

theorem value_toNat (c : GCounter) : c.value.toNat = (c.entries.map (fun e => e.count.toNat)).sum % 2^64 := by
  have sum : ∀ (l : List GCounterEntry) (from_ : UInt64),
      (l.foldl (fun sum e => sum + e.count) from_).toNat = (from_.toNat + (l.map (fun e => e.count.toNat)).sum) % 2^64 := by
    intro l
    induction l with
    | nil =>
      intro from_
      exact (Nat.mod_eq_of_lt from_.toNat_lt).symm
    | cons e l ih =>
      intro from_
      rw [List.foldl_cons,ih,UInt64.toNat_add,List.map_cons,List.sum_cons]
      omega
  rw [value,sum,UInt64.toNat_zero,Nat.zero_add]

/-- The sum of the entries is that of the counts of any nodes that have them all. -/
theorem sum_entries {c : GCounter} (distinct : (nodesOf c.entries).Nodup) {S : Finset UInt16}
    (within : ∀ n ∈ nodesOf c.entries, n ∈ S) : (c.entries.map (fun e => e.count.toNat)).sum = ∑ n ∈ S, c.countOf n := by
  have entries : (c.entries.map (fun e => e.count.toNat)).sum = ((nodesOf c.entries).map c.countOf).sum := by
    rw [nodesOf,List.map_map]
    apply congrArg List.sum
    apply List.map_congr_left
    intro e member
    exact (countIn_of_mem distinct member).symm
  rw [entries,← List.sum_toFinset _ distinct]
  apply Finset.sum_subset (fun n member => within n (List.mem_toFinset.mp member))
  intro n _ absent
  exact countIn_of_not_mem (fun member => absent (List.mem_toFinset.mpr member))

section
variable {ι : Type*} [Fintype ι] {ids : ι → UInt16}

/-- The value of a counter of some nodes is the sum of their counts. -/
theorem value_eq (distinct : Function.Injective ids) {c : GCounter} (sound : Sound (Finset.univ.image ids) c)
    (small : ∑ j, c.countOf (ids j) < 2^64) : c.value.toNat = ∑ j, c.countOf (ids j) := by
  rw [value_toNat,sum_entries sound.distinct sound.within,Finset.sum_image distinct.injOn,Nat.mod_eq_of_lt small]

end

/-! ### The grow-only counter -/

/-- The counter as a replicated object; an empty delta is not sent. -/
def gCounter : Object GCounter UInt64 Bytes where
  apply := GCounter.increment
  delta c := (if c.delta.1.isEmpty then none else some c.delta.1,c.delta.2)
  merge c d := (c.merge d).1

def gTally (S : Finset UInt16) : Tally gCounter UInt16 where
  own := GCounter.nodeId
  held := countOf
  carried d := largest (carriedEntries d)
  amount := UInt64.toNat
  limit := 2^64
  Good := Sound S
  Fine d := ∀ e ∈ carriedEntries d, e.nodeId ∈ S

/-- A delta of the counter carries its own entry. -/
theorem gCounter_delta {c : GCounter} (sound : Sound S c) {d : Bytes} (emitted : (gCounter.delta c).1 = some d) :
    carriedEntries d = (c.find c.nodeId).toList := by
  obtain ⟨e,found,_⟩ := find_own sound
  change (if c.delta.1.isEmpty then none else some c.delta.1) = some d at emitted
  rw [delta_bytes sound] at emitted
  cases dirty : c.dirty with
  | false =>
    rw [dirty] at emitted
    cases emitted
  | true =>
    rw [dirty,if_pos rfl,found] at emitted
    cases emitted
    rw [found]
    exact carriedEntries_encode_of_lt (Nat.one_lt_two_pow (by decide))

theorem gTally_lawful (S : Finset UInt16) : Lawful (gTally S) where
  own_apply := nodeId_increment
  own_delta c := by
    show c.delta.2.nodeId = c.nodeId
    rw [delta_state]
  own_merge c d := by
    show (c.merge d).1.nodeId = c.nodeId
    rw [merge_eq,nodeId_mergeEntries]
  held_apply c amount n room := countOf_increment c amount room n
  held_delta c n := by
    show c.delta.2.countOf n = c.countOf n
    rw [delta_state]
    rfl
  held_merge := countOf_merge
  carried_delta c d n sound emitted := by
    show largest (carriedEntries d) n ≤ c.countOf n
    rw [gCounter_delta sound emitted,largest_own sound]
    split
    · exact le_rfl
    · exact Nat.zero_le _
  carried_own c d sound emitted := by
    show largest (carriedEntries d) c.nodeId = c.countOf c.nodeId
    rw [gCounter_delta sound emitted,largest_own sound,if_pos rfl]
  good_apply c amount sound := sound_increment sound amount
  good_delta c sound := by
    show Sound S c.delta.2
    rw [delta_state]
    exact ⟨sound.distinct,sound.within,sound.own⟩
  good_merge c d sound fine := by
    show Sound S (c.merge d).1
    rw [merge_eq]
    exact sound_mergeEntries sound fine
  fine_delta c d sound emitted := by
    show ∀ e ∈ carriedEntries d, e.nodeId ∈ S
    rw [gCounter_delta sound emitted]
    intro e member
    rw [Option.mem_toList] at member
    exact sound.within _ (List.mem_map.mpr ⟨e,List.mem_of_find?_eq_some member,rfl⟩)

/-! ### The counter that goes both ways -/

/-- A local change: `increment` or `decrement` by an amount. -/
structure Count where
  side : Side
  amount : UInt64
  deriving DecidableEq, Repr

/-- What a change adds on a side. -/
def amountOn (side : Side) (op : Count) : ℕ := if op.side = side then op.amount.toNat else 0

def pnCounter : Object PnCounter Count Bytes where
  apply c op :=
    match op.side with
    | .up => c.increment op.amount
    | .down => c.decrement op.amount
  delta c := (if c.delta.1.isEmpty then none else some c.delta.1,c.delta.2)
  merge c d := (c.merge d).1

theorem half_apply (side : Side) (c : PnCounter) (op : Count) :
    half side (pnCounter.apply c op) = if op.side = side then (half side c).increment op.amount else half side c := by
  rcases op with ⟨side',amount⟩
  cases side <;> cases side' <;> rfl

theorem half_delta (side : Side) (c : PnCounter) :
    half side (pnCounter.delta c).2 = { half side c with dirty := false } := by
  cases side with
  | up => exact deltaHalf_state c.p
  | down => exact deltaHalf_state c.n

theorem half_merge (side : Side) (c : PnCounter) (d : Bytes) :
    half side (pnCounter.merge c d) = (mergeEntries (half side c,false) (carriedOn side d)).1 :=
  PnCounter.half_merge side c d

def pnTally (side : Side) (S : Finset UInt16) : Tally pnCounter UInt16 where
  own c := (half side c).nodeId
  held c := (half side c).countOf
  carried d := largest (carriedOn side d)
  amount := amountOn side
  limit := 2^64
  Good c := ∀ side, Sound S (half side c)
  Fine d := ∀ side, ∀ e ∈ carriedOn side d, e.nodeId ∈ S

/-- A delta of the counter carries what it sends of each half. -/
theorem pnCounter_delta (few : S.card ≤ 255) {c : PnCounter} (sound : ∀ side, Sound S (half side c)) {d : Bytes}
    (emitted : (pnCounter.delta c).1 = some d) (side : Side) : carriedOn side d = sentEntries (half side c) := by
  have up : Sound S c.p := sound .up
  have down : Sound S c.n := sound .down
  have bytes : c.delta.1 = encodeEntries (sentEntries c.p) ++ encodeEntries (sentEntries c.n) := by
    show (PnCounter.deltaHalf c.p).1 ++ (PnCounter.deltaHalf c.n).1 = _
    rw [deltaHalf_bytes up,deltaHalf_bytes down]
  have same : d = encodeEntries (sentEntries c.p) ++ encodeEntries (sentEntries c.n) := by
    change (if c.delta.1.isEmpty then none else some c.delta.1) = some d at emitted
    rw [bytes] at emitted
    cases emitted
    rfl
  rw [same,PnCounter.carriedOn_encode (sentEntries_few up few) (sentEntries_few down few)]
  cases side with
  | up => rfl
  | down => rfl

theorem pnTally_lawful (side : Side) (few : S.card ≤ 255) : Lawful (pnTally side S) where
  own_apply c op := by
    show (half side (pnCounter.apply c op)).nodeId = (half side c).nodeId
    rw [half_apply]
    split
    · exact nodeId_increment _ _
    · rfl
  own_delta c := by
    show (half side (pnCounter.delta c).2).nodeId = (half side c).nodeId
    rw [half_delta]
  own_merge c d := by
    show (half side (pnCounter.merge c d)).nodeId = (half side c).nodeId
    rw [half_merge,nodeId_mergeEntries]
  held_apply c op n room := by
    show (half side (pnCounter.apply c op)).countOf n = if n = (half side c).nodeId then
      (half side c).countOf n + amountOn side op else (half side c).countOf n
    change (half side c).countOf (half side c).nodeId + amountOn side op < 2^64 at room
    rw [half_apply]
    rw [amountOn] at room ⊢
    by_cases here : op.side = side
    · rw [if_pos here] at room ⊢
      rw [if_pos here,countOf_increment _ _ room]
    · rw [if_neg here,if_neg here,Nat.add_zero,ite_self]
  held_delta c n := by
    show (half side (pnCounter.delta c).2).countOf n = (half side c).countOf n
    rw [half_delta]
    rfl
  held_merge c d n := by
    show (half side (pnCounter.merge c d)).countOf n = _
    rw [half_merge,countOf_mergeEntries]
    rfl
  carried_delta c d n sound emitted := by
    show largest (carriedOn side d) n ≤ (half side c).countOf n
    rw [pnCounter_delta few sound emitted]
    exact (largest_sentEntries (sound side) n).1
  carried_own c d sound emitted := by
    show largest (carriedOn side d) (half side c).nodeId = (half side c).countOf (half side c).nodeId
    rw [pnCounter_delta few sound emitted]
    exact (largest_sentEntries (sound side) (half side c).nodeId).2
  good_apply c op sound := by
    intro side
    rw [half_apply]
    split
    · exact sound_increment (sound side) op.amount
    · exact sound side
  good_delta c sound := by
    intro side
    rw [half_delta]
    exact ⟨(sound side).distinct,(sound side).within,(sound side).own⟩
  good_merge c d sound fine := by
    intro side
    rw [half_merge]
    exact sound_mergeEntries (sound side) (fine side)
  fine_delta c d sound emitted := by
    intro side
    rw [pnCounter_delta few sound emitted]
    exact sentEntries_sub (sound side)

/-! ### Exact totals -/

section
variable {ι : Type*} [Fintype ι] [DecidableEq ι] (ids : ι → UInt16)

/-- Every counter as it is constructed. -/
def gBegin : Network ι GCounter Bytes := start (fun i => GCounter.new (ids i))
def pnBegin : Network ι PnCounter Bytes := start (fun i => PnCounter.new (ids i))

/-- No replica holds more for a node than the node itself, which holds what it has
    added, and a replica that the last count of every other node has reached has
    the total. -/
def GExact (es : List (Event ι UInt64)) : Prop :=
  let s := run (step gCounter) (gBegin ids) es
  (∀ i j, (s.node i).countOf (ids j) ≤ (s.node j).localCount.toNat) ∧
  (∀ j, (s.node j).localCount.toNat = added UInt64.toNat es j) ∧
  ∀ i, (∀ j, j ≠ i → (∃ op, .act j op ∈ es) → Reached gCounter (gBegin ids) es i j) →
    (s.node i).value.toNat = ∑ j, added UInt64.toNat es j

/-- The same on both sides. -/
def PnExact (es : List (Event ι Count)) : Prop :=
  let s := run (step pnCounter) (pnBegin ids) es
  (∀ side i j, (half side (s.node i)).countOf (ids j) ≤ (half side (s.node j)).localCount.toNat) ∧
  (∀ side j, (half side (s.node j)).localCount.toNat = added (amountOn side) es j) ∧
  ∀ i, (∀ j, j ≠ i → (∃ op, .act j op ∈ es) → Reached pnCounter (pnBegin ids) es i j) →
    (s.node i).value.toInt = (∑ j, added (amountOn .up) es j : ℕ) - (∑ j, added (amountOn .down) es j : ℕ)

variable {ids}

omit [DecidableEq ι] in
theorem counted_gBegin : Counted (gTally (Finset.univ.image ids)) ids (fun _ => 0) (gBegin ids) where
  own i := rfl
  good i := sound_new (Finset.mem_image_of_mem ids (Finset.mem_univ i))
  fine d member := by cases member
  held_own i := countOf_new _ _
  held_le i j := (countOf_new _ _).le
  carried_le d member := by cases member
  merged_le i k d found := by cases found

omit [DecidableEq ι] in
theorem counted_pnBegin (side : Side) :
    Counted (pnTally side (Finset.univ.image ids)) ids (fun _ => 0) (pnBegin ids) where
  own i := by cases side <;> rfl
  good i side := by
    have new : half side (PnCounter.new (ids i)) = .new (ids i) := by cases side <;> rfl
    show Sound _ (half side (PnCounter.new (ids i)))
    rw [new]
    exact sound_new (Finset.mem_image_of_mem ids (Finset.mem_univ i))
  fine d member := by cases member
  held_own i := by cases side <;> exact countOf_new _ _
  held_le i j := by cases side <;> exact (countOf_new _ _).le
  carried_le d member := by cases member
  merged_le i k d found := by cases found

omit [Fintype ι] [DecidableEq ι] in
theorem mergedSent_start {R M : Type*} (init : ι → R) : MergedSent (start init : Network ι R M) := by
  intro i k member
  cases member

/-- Where the total is small, so is each part of it. -/
theorem added_lt {Op : Type*} {amount : Op → ℕ} {es : List (Event ι Op)} (small : ∑ j, added amount es j < 2^63) (i : ι) :
    added amount es i < 2^64 := by
  have part : added amount es i ≤ ∑ j, added amount es j :=
    Finset.single_le_sum (fun j _ => Nat.zero_le (added amount es j)) (Finset.mem_univ i)
  omega

theorem gExact (distinct : Function.Injective ids) {es : List (Event ι UInt64)}
    (small : ∑ j, added UInt64.toNat es j < 2^63) : GExact ids es := by
  have lawful := gTally_lawful (Finset.univ.image ids)
  have counted : Counted (gTally (Finset.univ.image ids)) ids (added UInt64.toNat es)
      (run (step gCounter) (gBegin ids) es) :=
    counted_of_zero lawful distinct (mergedSent_start _) counted_gBegin (added_lt small)
  have own : ∀ j, ((run (step gCounter) (gBegin ids) es).node j).localCount.toNat = added UInt64.toNat es j := by
    intro j
    rw [localCount_eq]
    exact (congrArg _ (counted.own j)).trans (counted.held_own j)
  refine ⟨?_,own,?_⟩
  · intro i j
    rw [own]
    exact counted.held_le i j
  · intro i reached
    have held : ∀ j, ((run (step gCounter) (gBegin ids) es).node i).countOf (ids j) = added UInt64.toNat es j :=
      held_eq lawful distinct (mergedSent_start _) counted_gBegin (added_lt small) reached
    show ((run (step gCounter) (gBegin ids) es).node i).value.toNat = _
    rw [value_eq distinct (counted.good i)]
    · simp only [held]
    · simp only [held]
      omega

/-- A difference of small values is exact. -/
theorem toInt_sub_of_small {p n : UInt64} (up : p.toNat < 2^63) (down : n.toNat < 2^63) :
    (p.toInt64 - n.toInt64).toInt = (p.toNat : ℤ) - n.toNat := by
  have exact : ∀ {v : UInt64}, v.toNat < 2^63 → v.toInt64.toInt = v.toNat := by
    intro v small
    show v.toBitVec.toInt = _
    exact BitVec.toInt_eq_toNat_of_lt (by rw [UInt64.toNat_toBitVec]; omega)
  rw [Int64.toInt_sub,exact up,exact down]
  apply Int.bmod_eq_of_le
  · omega
  · omega

theorem pnExact (distinct : Function.Injective ids) (few : Fintype.card ι ≤ 255) {es : List (Event ι Count)}
    (small : ∀ side, ∑ j, added (amountOn side) es j < 2^63) : PnExact ids es := by
  have card : (Finset.univ.image ids).card ≤ 255 := Finset.card_image_le.trans few
  have lawful := fun side => pnTally_lawful side card
  have counted : ∀ side, Counted (pnTally side (Finset.univ.image ids)) ids (added (amountOn side) es)
      (run (step pnCounter) (pnBegin ids) es) := fun side =>
    counted_of_zero (lawful side) distinct (mergedSent_start _) (counted_pnBegin side) (added_lt (small side))
  have own : ∀ side j,
      (half side ((run (step pnCounter) (pnBegin ids) es).node j)).localCount.toNat = added (amountOn side) es j := by
    intro side j
    rw [localCount_eq]
    exact (congrArg _ ((counted side).own j)).trans ((counted side).held_own j)
  refine ⟨?_,own,?_⟩
  · intro side i j
    rw [own]
    exact (counted side).held_le i j
  · intro i reached
    have value : ∀ side, (half side ((run (step pnCounter) (pnBegin ids) es).node i)).value.toNat =
        ∑ j, added (amountOn side) es j := by
      intro side
      have held : ∀ j, (half side ((run (step pnCounter) (pnBegin ids) es).node i)).countOf (ids j) =
          added (amountOn side) es j :=
        held_eq (lawful side) distinct (mergedSent_start _) (counted_pnBegin side) (added_lt (small side)) reached
      have total := small side
      rw [value_eq distinct ((counted side).good i side)]
      · simp only [held]
      · simp only [held]
        omega
    have up := value .up
    have down := value .down
    show (PnCounter.value _).toInt = _
    rw [PnCounter.value,toInt_sub_of_small]
    · rw [← up,← down]
      rfl
    · exact up.trans_lt (small .up)
    · exact down.trans_lt (small .down)

/-- Counters of at most 255 nodes count exactly, whatever becomes of their
    deltas. -/
theorem counters_exact (distinct : Function.Injective ids) (few : Fintype.card ι ≤ 255) :
    (∀ es : List (Event ι UInt64), ∑ j, added UInt64.toNat es j < 2^63 → GExact ids es) ∧
    ∀ es : List (Event ι Count), ∑ j, added (amountOn .up) es j < 2^63 → ∑ j, added (amountOn .down) es j < 2^63 →
      PnExact ids es := by
  constructor
  · intro es small
    exact gExact distinct small
  · intro es up down
    apply pnExact distinct few
    intro side
    cases side with
    | up => exact up
    | down => exact down

end

/-- Two nodes. -/
def twoIds (second : Bool) : UInt16 := if second then 2 else 1

/-- A node counts up and down with a delta in between; another merges only the
    second delta, twice. -/
def bothWays : List (Event Bool Count) :=
  [.act false ⟨.up,5⟩,.emit false,.act false ⟨.down,2⟩,.emit false,.deliver true 1,.deliver true 1]

theorem counters_exact_both_ways :
    ((run (step pnCounter) (pnBegin twoIds) bothWays).node true).value = 3 ∧ PnExact twoIds bothWays :=
  ⟨by decide +kernel,(counters_exact (by decide) (by decide)).2 bothWays (by decide +kernel) (by decide +kernel)⟩

end Rom.CounterRuns
