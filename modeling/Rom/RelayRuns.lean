import Rom.Relay
import Rom.Replicas
import Rom.CounterWire
import Rom.OrSetWire
import Rom.Runs

/-!
What relaying does to what a downstream replica ends up with. A snapshot of a
register or a counter stands for the payloads that were merged into it since it
was new: merging the snapshot does what merging the payloads does (`Stands`).
Hence aggregation is transparent for these types, however batches are cut
(`relay_transparent`). A snapshot of a set holds no removes, so for sets this
needs every remove to meet its add in one batch (`relay_keeps_removals`).
-/
namespace Rom

namespace RelayRuns
open Std Rom.Runs GCounter
open Rom.PnCounter (Side half carriedOn)
open Rom.Crdt (mergeAll mergeAll_append typeOf_mergeAll)

/-- What is observed of a value: the stamp and the value of a register, the count
    of each node in a counter, the tags of each element of a set. -/
inductive View where
  | register (timestamp : UInt32) (nodeId : UInt16) (value : Bytes)
  | counts (count : UInt16 → ℕ)
  | sides (count : Side → UInt16 → ℕ)
  | tags (tagged : Bytes → OrSetTag → Prop)

def view : Crdt → View
  | .lwwRegister r => .register r.timestamp r.nodeId r.value
  | .gCounter c => .counts c.countOf
  | .pnCounter c => .sides (fun side => (half side c).countOf)
  | .orSet s => .tags (fun key tag => tag ∈ tagsOf s.entries key)

/-- A counter's types are those whose payloads name nodes. -/
def Aggregated (type : CrdtType) : Prop := type = .lwwRegister ∨ type = .gCounter ∨ type = .pnCounter

/-- The nodes that a payload names as a merge of the type reads it. -/
def nodesIn (type : CrdtType) (data : Bytes) : List UInt16 :=
  match type with
  | .gCounter => nodesOf (carriedEntries data)
  | .pnCounter => nodesOf (carriedOn .up data) ++ nodesOf (carriedOn .down data)
  | _ => []

/-! ### Views under merges -/

/-- What is observed after a merge depends on what was observed before. -/
theorem view_merge {a b : Crdt} (same : view a = view b) (data : Bytes) :
    view (a.merge data).1 = view (b.merge data).1 := by
  match a, b, same with
  | .lwwRegister r, .lwwRegister r', same =>
    obtain ⟨ts,node,value⟩ := View.register.inj same
    have stamp : r.stamp = r'.stamp := by rw [LwwRegister.stamp,LwwRegister.stamp,ts,node]
    show view (.lwwRegister (r.merge data).1) = view (.lwwRegister (r'.merge data).1)
    by_cases newer : r.stamp < LwwRegister.wireStamp data
    · rw [LwwRegister.merge_of_lt newer,LwwRegister.merge_of_lt (stamp ▸ newer)]
      rfl
    · have le := le_of_not_gt newer
      rw [LwwRegister.merge_of_le le,LwwRegister.merge_of_le (stamp ▸ le)]
      exact same
  | .gCounter c, .gCounter c', same =>
    have counts := View.counts.inj same
    show View.counts (c.merge data).1.countOf = View.counts (c'.merge data).1.countOf
    apply congrArg
    funext n
    rw [countOf_merge,countOf_merge,counts]
  | .pnCounter c, .pnCounter c', same =>
    have counts := View.sides.inj same
    show View.sides (fun side => (half side (c.merge data).1).countOf) =
      View.sides (fun side => (half side (c'.merge data).1).countOf)
    apply congrArg
    funext side n
    rw [PnCounter.half_merge,PnCounter.half_merge,countOf_mergeEntries,countOf_mergeEntries]
    exact congrArg (max · _) (congrFun (congrFun counts side) n)
  | .orSet s, .orSet s', same =>
    have tags := View.tags.inj same
    show View.tags (fun key tag => tag ∈ tagsOf (s.merge data).1.entries key) =
      View.tags (fun key tag => tag ∈ tagsOf (s'.merge data).1.entries key)
    apply congrArg
    funext key tag
    rw [OrSet.tag_mem_merge_carried,OrSet.tag_mem_merge_carried]
    rw [show (tag ∈ tagsOf s.entries key) = (tag ∈ tagsOf s'.entries key) from congrFun (congrFun tags key) tag]

theorem view_mergeAll {a b : Crdt} (same : view a = view b) (ds : List Bytes) :
    view (mergeAll a ds) = view (mergeAll b ds) := by
  induction ds generalizing a b with
  | nil => exact same
  | cons d ds ih => exact ih (view_merge same d)

/-! ### Snapshots -/

/-- All entries of the value are of some nodes. -/
def Within (S : Finset UInt16) : Crdt → Prop
  | .lwwRegister _ => True
  | .gCounter c => Sound S c
  | .pnCounter c => ∀ side, Sound S (half side c)
  | .orSet _ => True

theorem countOf_merge_snapshot {S : Finset UInt16} (few : S.card ≤ 255) (r : GCounter) {c : GCounter} (sound : Sound S c)
    (n : UInt16) : (r.merge c.snapshot).1.countOf n = max (r.countOf n) (c.countOf n) := by
  rw [countOf_merge,snapshot_eq,carriedEntries_encode_of_lt (sound_few sound few),largest_eq_countIn sound.distinct]
  rfl

theorem half_merge_snapshot {S : Finset UInt16} (few : S.card ≤ 255) (r : PnCounter) {c : PnCounter}
    (sound : ∀ side, Sound S (half side c)) (side : Side) (n : UInt16) :
    (half side (r.merge c.snapshot).1).countOf n = max ((half side r).countOf n) ((half side c).countOf n) := by
  have up : c.p.entries.length < 2^8 := sound_few (sound .up) few
  have down : c.n.entries.length < 2^8 := sound_few (sound .down) few
  have carried : carriedOn side c.snapshot = (half side c).entries := by
    show carriedOn side (encodeEntries c.p.entries ++ encodeEntries c.n.entries) = _
    rw [PnCounter.carriedOn_encode up down]
    cases side with
    | up => rfl
    | down => rfl
  rw [PnCounter.half_merge,countOf_mergeEntries,carried,largest_eq_countIn (sound side).distinct]
  rfl

/-- Merging a snapshot after a payload went into it does what merging the snapshot
    before, and then the payload, does. -/
theorem view_snapshot_merge {S : Finset UInt16} (few : S.card ≤ 255) {r c : Crdt} (type : Aggregated c.typeOf)
    (same : r.typeOf = c.typeOf) {data : Bytes} (within : Within S c) (within' : Within S (c.merge data).1) :
    view (r.merge (c.merge data).1.snapshot).1 = view ((r.merge c.snapshot).1.merge data).1 := by
  cases c with
  | lwwRegister c =>
    obtain ⟨r,rfl⟩ := Crdt.exists_register same
    exact congrArg (fun r => view (.lwwRegister r)) (LwwRegister.merge_snapshot_merge r c data)
  | gCounter c =>
    obtain ⟨r,rfl⟩ := Crdt.exists_gCounter same
    show View.counts (r.merge (c.merge data).1.snapshot).1.countOf =
      View.counts ((r.merge c.snapshot).1.merge data).1.countOf
    apply congrArg
    funext n
    rw [countOf_merge_snapshot few r within',countOf_merge,countOf_merge,countOf_merge_snapshot few r within,max_assoc]
  | pnCounter c =>
    obtain ⟨r,rfl⟩ := Crdt.exists_pnCounter same
    show View.sides (fun side => (half side (r.merge (c.merge data).1.snapshot).1).countOf) =
      View.sides (fun side => (half side ((r.merge c.snapshot).1.merge data).1).countOf)
    apply congrArg
    funext side n
    rw [half_merge_snapshot few r within',PnCounter.half_merge,PnCounter.half_merge,countOf_mergeEntries,
      countOf_mergeEntries,half_merge_snapshot few r within,max_assoc]
  | orSet s => rcases type with type | type | type <;> cases type

/-- The snapshot of a new value of the relay changes nothing. -/
theorem view_snapshot_create {type : CrdtType} (aggregated : Aggregated type) {c r : Crdt}
    (created : Aggregator.createCrdt type = some c) (same : r.typeOf = type) : view (r.merge c.snapshot).1 = view r := by
  rcases aggregated with rfl | rfl | rfl
  · cases created
    obtain ⟨r,rfl⟩ := Crdt.exists_register same
    have least : LwwRegister.wireStamp (LwwRegister.new 0).snapshot ≤ r.stamp := by
      rw [LwwRegister.snapshot,LwwRegister.wireStamp_encodeState]
      exact Prod.Lex.toLex_le_toLex.mpr (by
        show (0 : ℕ) < _ ∨ (0 : ℕ) = _ ∧ (0 : ℕ) ≤ _
        omega)
    show view (.lwwRegister (r.merge (LwwRegister.new 0).snapshot).1) = _
    rw [LwwRegister.merge_of_le least]
  · cases created
    obtain ⟨r,rfl⟩ := Crdt.exists_gCounter same
    have sound : Sound {0} (GCounter.new 0) := sound_new (Finset.mem_singleton.mpr rfl)
    show View.counts (r.merge (GCounter.new 0).snapshot).1.countOf = View.counts r.countOf
    apply congrArg
    funext n
    rw [countOf_merge_snapshot (by decide) r sound,countOf_new,Nat.max_zero]
  · cases created
    obtain ⟨r,rfl⟩ := Crdt.exists_pnCounter same
    have sound : ∀ side, Sound {0} (half side (PnCounter.new 0)) := by
      intro side
      cases side with
      | up => exact sound_new (Finset.mem_singleton.mpr rfl)
      | down => exact sound_new (Finset.mem_singleton.mpr rfl)
    show View.sides (fun side => (half side (r.merge (PnCounter.new 0).snapshot).1).countOf) =
      View.sides (fun side => (half side r).countOf)
    apply congrArg
    funext side n
    rw [half_merge_snapshot (by decide) r sound]
    cases side with
    | up => exact (congrArg _ (countOf_new 0 n)).trans (Nat.max_zero _)
    | down => exact (congrArg _ (countOf_new 0 n)).trans (Nat.max_zero _)

/-- The snapshot of the value does what the payloads do. -/
def Stands (c : Crdt) (ds : List Bytes) : Prop :=
  ∀ r : Crdt, r.typeOf = c.typeOf → view (r.merge c.snapshot).1 = view (mergeAll r ds)

theorem stands_merge {S : Finset UInt16} (few : S.card ≤ 255) {c : Crdt} {ds : List Bytes} (type : Aggregated c.typeOf)
    {data : Bytes} (within : Within S c) (within' : Within S (c.merge data).1) (stands : Stands c ds) :
    Stands (c.merge data).1 (ds ++ [data]) := by
  intro r same
  rw [Crdt.typeOf_merge] at same
  rw [view_snapshot_merge few type same within within',mergeAll_append]
  exact view_merge (stands r same) data

theorem within_merge {S : Finset UInt16} {c : Crdt} {data : Bytes} (within : Within S c)
    (named : ∀ n ∈ nodesIn c.typeOf data, n ∈ S) : Within S (c.merge data).1 := by
  cases c with
  | lwwRegister r => trivial
  | gCounter c =>
    show Sound S (c.merge data).1
    rw [GCounter.merge_eq]
    exact sound_mergeEntries within (fun e member => named _ (List.mem_map.mpr ⟨e,member,rfl⟩))
  | pnCounter c =>
    intro side
    rw [PnCounter.half_merge]
    refine sound_mergeEntries (within side) (fun e member => named _ (List.mem_append.mpr ?_))
    cases side with
    | up => exact .inl (List.mem_map.mpr ⟨e,member,rfl⟩)
    | down => exact .inr (List.mem_map.mpr ⟨e,member,rfl⟩)
  | orSet s => trivial

/-! ### Aggregation is transparent -/

open Aggregator (Call payloads payloads_ingest emittedFor putOut pendingFor ingestBucket createCrdt path_cases apply_config)

def step (agg : Aggregator) (call : Call) : Aggregator := (agg.apply call).1
def out (agg : Aggregator) (call : Call) : List Emission := (agg.apply call).2

/-- The batch stands for the payloads that went into it. -/
structure Holds (S : Finset UInt16) (type : CrdtType) (ds : List Bytes) (bucket : Bucket) : Prop where
  stands : Stands bucket.crdt ds
  type : bucket.crdt.typeOf = type
  within : Within S bucket.crdt
  counted : bucket.deltaCount ≠ 0

/-- The payloads of the path since its last emission are in its open batch. -/
def Pending (S : Finset UInt16) (type : CrdtType) (ds : List Bytes) (config : AggregatorConfig) : Option Bucket → Prop
  | none => ds = []
  | some bucket => Holds S type ds bucket ∧ bucket.deltaCount < config.maxBatchSize

section
variable {S : Finset UInt16} {type : CrdtType} {ds : List Bytes} {config : AggregatorConfig}

theorem putOut_of_counted {bucket : Bucket} (counted : bucket.deltaCount ≠ 0) :
    putOut true bucket = [bucket.crdt.snapshot] := by
  simp [putOut,emittedFor,Aggregator.flushBucket,counted,Aggregator.isEmpty_snapshot]

/-- A count below the batch size does not wrap. -/
theorem count_ne_zero {count size : UInt32} (room : count < size) : count + 1 ≠ 0 := by
  have bound := size.toNat_lt
  rw [UInt32.lt_iff_toNat_lt] at room
  rw [ne_eq,← UInt32.toNat_inj,UInt32.toNat_add,UInt32.toNat_zero,UInt32.toNat_one]
  omega

theorem holds_created (few : S.card ≤ 255) (zero : 0 ∈ S) (aggregated : Aggregated type) {data : Bytes}
    (named : ∀ n ∈ nodesIn type data, n ∈ S) (now : Nat) :
    ∃ bucket, ingestBucket now type data none = some bucket ∧ Holds S type [data] bucket := by
  obtain ⟨c,created,typed,within⟩ : ∃ c, createCrdt type = some c ∧ c.typeOf = type ∧ Within S c := by
    rcases aggregated with rfl | rfl | rfl
    · exact ⟨_,rfl,rfl,trivial⟩
    · exact ⟨_,rfl,rfl,sound_new zero⟩
    · refine ⟨_,rfl,rfl,fun side => ?_⟩
      cases side with
      | up => exact sound_new zero
      | down => exact sound_new zero
  have empty : Stands c [] := fun r same => view_snapshot_create aggregated created (same.trans typed)
  refine ⟨⟨type,(c.merge data).1,1,now⟩,by rw [ingestBucket,created],?_,?_,?_,(by decide : (1 : UInt32) ≠ 0)⟩
  · exact stands_merge few (typed ▸ aggregated) within (within_merge within (typed ▸ named)) empty
  · exact (Crdt.typeOf_merge c data).trans typed
  · exact within_merge within (typed ▸ named)

theorem holds_ingested (few : S.card ≤ 255) (aggregated : Aggregated type) {data : Bytes}
    (named : ∀ n ∈ nodesIn type data, n ∈ S) {bucket : Bucket} (holds : Holds S type ds bucket)
    (room : bucket.deltaCount < config.maxBatchSize) :
    Holds S type (ds ++ [data])
      { bucket with crdt := (bucket.crdt.merge data).1, deltaCount := bucket.deltaCount + 1 } := by
  have within' := within_merge holds.within (holds.type ▸ named)
  exact ⟨stands_merge few (holds.type ▸ aggregated) holds.within within' holds.stands,
    (Crdt.typeOf_merge _ _).trans holds.type,within',count_ne_zero room⟩

/-- A payload goes into the batch. -/
theorem holds_ingestBucket (few : S.card ≤ 255) (zero : 0 ∈ S) (aggregated : Aggregated type) {data : Bytes}
    (named : ∀ n ∈ nodesIn type data, n ∈ S) (now : Nat) {batch : Option Bucket}
    (pending : Pending S type ds config batch) :
    ∃ bucket, ingestBucket now type data batch = some bucket ∧ Holds S type (ds ++ [data]) bucket := by
  cases batch with
  | none =>
    rw [show ds = [] from pending]
    exact holds_created few zero aggregated named now
  | some bucket => exact ⟨_,rfl,holds_ingested few aggregated named pending.1 pending.2⟩

/-- What a call puts out and leaves pending does what was pending and its payload
    do. -/
theorem transparent_step (few : S.card ≤ 255) (zero : 0 ∈ S) (aggregated : Aggregated type) {hash : UInt32}
    {call : Call} {agg : Aggregator} (emits : agg.emits = true)
    (typed : ∀ now crdtType data, call = .ingest now hash crdtType data → crdtType = type)
    (named : ∀ data ∈ payloads hash call, ∀ n ∈ nodesIn type data, n ∈ S)
    (pending : Pending S type ds agg.config agg.buckets[hash]?) :
    ∃ ds', Pending S type ds' agg.config (agg.apply call).1.buckets[hash]? ∧
      ∀ r : Crdt, r.typeOf = type →
        view (mergeAll r (emittedFor hash (agg.apply call).2 ++ ds')) = view (mergeAll r (ds ++ payloads hash call)) := by
  rcases path_cases agg call hash with ⟨none,kept,quiet⟩ | ⟨now,crdtType,data,rfl,filled,room,quiet⟩ |
    ⟨now,crdtType,data,bucket,rfl,filled,gone,emitted⟩ | ⟨none,gone,emitted⟩
  · refine ⟨ds,kept ▸ pending,fun r _ => ?_⟩
    rw [quiet,none,List.nil_append,List.append_nil]
  · obtain rfl := typed now crdtType data rfl
    have payload := payloads_ingest hash now crdtType data
    obtain ⟨bucket,ingested,holds⟩ := holds_ingestBucket few zero aggregated
      (named data (payload ▸ List.mem_singleton.mpr rfl)) now pending
    rw [ingested] at filled
    refine ⟨ds ++ [data],?_,fun r _ => ?_⟩
    · rw [filled]
      exact ⟨holds,room bucket filled⟩
    · rw [quiet,payload,List.nil_append]
  · obtain rfl := typed now crdtType data rfl
    have payload := payloads_ingest hash now crdtType data
    obtain ⟨bucket',ingested,holds⟩ := holds_ingestBucket few zero aggregated
      (named data (payload ▸ List.mem_singleton.mpr rfl)) now pending
    rw [ingested] at filled
    cases filled
    refine ⟨[],?_,fun r same => ?_⟩
    · rw [gone]
      rfl
    · rw [emitted,emits,putOut_of_counted holds.counted,payload]
      exact holds.stands r (same.trans holds.type.symm)
  · refine ⟨[],?_,fun r same => ?_⟩
    · rw [gone]
      rfl
    · rw [emitted,none,pendingFor,emits,List.append_nil]
      cases batch : agg.buckets[hash]? with
      | none =>
        rw [batch] at pending
        rw [show ds = [] from pending]
        rfl
      | some bucket =>
        rw [batch] at pending
        rw [Option.map_some,Option.getD_some,putOut_of_counted pending.1.counted,List.append_nil]
        exact pending.1.stands r (same.trans pending.1.type.symm)

/-- What a path's batches put out does what its payloads do. -/
theorem transparent_run (few : S.card ≤ 255) (zero : 0 ∈ S) (aggregated : Aggregated type) {hash : UInt32}
    {calls : List Call} {agg : Aggregator} (emits : agg.emits = true)
    (typed : ∀ now crdtType data, .ingest now hash crdtType data ∈ calls → crdtType = type)
    (named : ∀ data ∈ calls.flatMap (payloads hash), ∀ n ∈ nodesIn type data, n ∈ S)
    (pending : Pending S type ds agg.config agg.buckets[hash]?)
    (ended : (run step agg calls).buckets[hash]? = none) (r : Crdt) (same : r.typeOf = type) :
    view (mergeAll r (emittedFor hash (outputs step out agg calls))) =
      view (mergeAll r (ds ++ calls.flatMap (payloads hash))) := by
  induction calls generalizing agg ds r with
  | nil =>
    rw [show agg.buckets[hash]? = none from ended] at pending
    rw [show ds = [] from pending]
    rfl
  | cons call calls ih =>
    obtain ⟨config,emits'⟩ := apply_config agg call
    obtain ⟨ds',pending',together⟩ := transparent_step few zero aggregated emits
      (fun now crdtType data first => typed now crdtType data (first ▸ List.mem_cons_self))
      (fun data member => named data (List.mem_append_left _ member)) pending
    have rest := ih (show (step agg call).emits = true from emits'.trans emits)
      (fun now crdtType data member => typed now crdtType data (List.mem_cons_of_mem _ member))
      (fun data member => named data (List.mem_append_right _ member)) (config ▸ pending') ended
      (mergeAll r (emittedFor hash (out agg call))) ((Crdt.typeOf_mergeAll r _).trans same)
    rw [outputs,Aggregator.emittedFor_append,mergeAll_append,rest,List.flatMap_cons,← mergeAll_append,
      ← List.append_assoc,← List.append_assoc,mergeAll_append,mergeAll_append r (ds ++ payloads hash call)]
    exact view_mergeAll (together r same) _

end

/-- An aggregator whose emissions are taken. -/
def listening (config : AggregatorConfig) : Aggregator := { config := config, emits := true }

/-- Whatever payloads an aggregator takes for a path of registers or counters, and
    however it cuts them into batches, a replica that merges what it puts out is
    left as one that merges the payloads. -/
theorem relay_transparent (config : AggregatorConfig) (calls : List Call) (hash : UInt32) (type : CrdtType)
    (aggregated : Aggregated type) (typed : ∀ now crdtType data, .ingest now hash crdtType data ∈ calls → crdtType = type)
    (few : ((calls.flatMap (payloads hash)).flatMap (nodesIn type)).toFinset.card ≤ 254)
    (ended : (run step (listening config) calls).buckets[hash]? = none) (r : Crdt) (same : r.typeOf = type) :
    view (mergeAll r (emittedFor hash (outputs step out (listening config) calls))) =
      view (mergeAll r (calls.flatMap (payloads hash))) := by
  have card : (insert 0 ((calls.flatMap (payloads hash)).flatMap (nodesIn type)).toFinset).card ≤ 255 :=
    (Finset.card_insert_le _ _).trans (Nat.succ_le_succ few)
  have named : ∀ data ∈ calls.flatMap (payloads hash), ∀ n ∈ nodesIn type data,
      n ∈ insert 0 ((calls.flatMap (payloads hash)).flatMap (nodesIn type)).toFinset := by
    intro data listed n member
    exact Finset.mem_insert_of_mem (List.mem_toFinset.mpr (List.mem_flatMap.mpr ⟨data,listed,member⟩))
  have start : Pending (insert 0 ((calls.flatMap (payloads hash)).flatMap (nodesIn type)).toFinset) type [] config
      (listening config).buckets[hash]? := by
    rw [show (listening config).buckets[hash]? = none from ExtTreeMap.getElem?_empty]
    rfl
  exact transparent_run card (Finset.mem_insert_self _ _) aggregated rfl typed named start ended r same

/-- Two deltas of a counter and a payload that is cut off, in two batches. -/
def threePayloads : List Call :=
  [.ingest 0 5 .gCounter ((GCounter.new 1).increment 4).snapshot,.ingest 10 5 .gCounter [3,0],
    .ingest 20 5 .gCounter ((GCounter.new 2).increment 6).snapshot,.flush]

theorem relay_transparent_three_payloads :
    (emittedFor 5 (outputs step out (listening { maxBatchSize := 2 }) threePayloads)).length = 2 ∧
    view (mergeAll (.gCounter (.new 3)) (emittedFor 5 (outputs step out (listening { maxBatchSize := 2 }) threePayloads))) =
      view (mergeAll (.gCounter (.new 3)) (threePayloads.flatMap (payloads 5))) := by
  refine ⟨by decide +kernel,relay_transparent { maxBatchSize := 2 } threePayloads 5 .gCounter (.inr (.inl rfl)) ?_
    (by decide +kernel) ?_ _ rfl⟩
  · intro now crdtType data member
    simp only [threePayloads,List.mem_cons,Call.ingest.injEq,reduceCtorEq,List.not_mem_nil,or_false] at member
    rcases member with ⟨_,_,type,_⟩ | ⟨_,_,type,_⟩ | ⟨_,_,type,_⟩
    · exact type
    · exact type
    · exact type
  · exact Option.isNone_iff_eq_none.mp (by decide +kernel)

/-! ### Removals through a relay node -/

/-- A call on a relay node, with the time at which it is made. -/
inductive RelayCall where
  | receiveDelta (now : Nat) (pathHash : UInt32) (crdtType : CrdtType) (data : Bytes) (sourceNode : UInt16)
  | tick (now : Nat)
  | flush (now : Nat)
  deriving DecidableEq, Repr

/-- The call that the node makes on its aggregator. -/
def RelayCall.aggregatorCall : RelayCall → Call
  | .receiveDelta now pathHash crdtType data _ => .ingest now pathHash crdtType data
  | .tick now => .flushIfReady now
  | .flush _ => .flush

/-- The node after a call, and what it forwards. -/
def RelayCall.apply (node : RelayNode) : RelayCall → RelayNode × List Emission
  | .receiveDelta now pathHash crdtType data sourceNode => (node.receiveDelta now pathHash crdtType data sourceNode,[])
  | .tick now => node.tick now
  | .flush now => (node.flush now).1

/-- A relay node, a set that merges what the node forwards for a path, and a set
    that merges the deltas themselves. -/
structure Relaying where
  node : RelayNode
  downstream : OrSet
  direct : OrSet

def relayStep (hash : UInt32) (s : Relaying) (call : RelayCall) : Relaying where
  node := (call.apply s.node).1
  downstream := OrSet.mergeAll s.downstream (emittedFor hash (call.apply s.node).2)
  direct := OrSet.mergeAll s.direct (payloads hash call.aggregatorCall)

/-- The downstream set once it has what is queued for it. -/
def ahead (hash : UInt32) (s : Relaying) : OrSet := OrSet.mergeAll s.downstream (emittedFor hash s.node.forwardQueue)

/-- The set in a batch. -/
def batchSet : Option Bucket → OrSet
  | some ⟨_,.orSet s,_,_⟩ => s
  | _ => .new 0

/-- The set in the open batch of a path once the call's payload is in it. -/
def batchAfter (hash : UInt32) (s : Relaying) (call : RelayCall) : OrSet :=
  OrSet.mergeAll (batchSet s.node.aggregator.buckets[hash]?) (payloads hash call.aggregatorCall)

/-- The call completes the batch of a path: a delta by its size, a flush in any case,
    and a tick by its size or age. -/
def Completes (hash : UInt32) (agg : Aggregator) : Call → Prop
  | .ingest _ pathHash _ _ => pathHash = hash ∧
      agg.config.maxBatchSize ≤ (agg.buckets[hash]?.map Bucket.deltaCount).getD 0 + 1
  | .flush => agg.buckets[hash]?.isSome = true
  | .flushIfReady now => agg.buckets[hash]?.any (Aggregator.ready agg.config now) = true

instance (hash : UInt32) (agg : Aggregator) : (call : Call) → Decidable (Completes hash agg call)
  | .ingest _ pathHash _ _ => inferInstanceAs (Decidable (pathHash = hash ∧
      agg.config.maxBatchSize ≤ (agg.buckets[hash]?.map Bucket.deltaCount).getD 0 + 1))
  | .flush => inferInstanceAs (Decidable (agg.buckets[hash]?.isSome = true))
  | .flushIfReady now => inferInstanceAs (Decidable (agg.buckets[hash]?.any (Aggregator.ready agg.config now) = true))

/-- No remove of the call is of a tag that has left the relay before, and the set in a
    batch that the call completes fits its format. -/
def SameBatch (hash : UInt32) (s : Relaying) (call : RelayCall) : Prop :=
  (∀ d ∈ payloads hash call.aggregatorCall, ∀ tomb ∈ (OrSet.carried d).tombstones.toList,
    ∀ e ∈ (ahead hash s).entries.toList, tomb ∉ e.2) ∧
  (Completes hash s.node.aggregator call.aggregatorCall → OrSet.Fits (batchAfter hash s call).entries ∅)

instance (hash : UInt32) (s : Relaying) (call : RelayCall) : Decidable (SameBatch hash s call) :=
  inferInstanceAs (Decidable (_ ∧ _))

theorem deltaCount_ingestBucket {now : Nat} {crdtType : CrdtType} {data : Bytes} {batch : Option Bucket} {bucket : Bucket}
    (filled : ingestBucket now crdtType data batch = some bucket) :
    bucket.deltaCount = (batch.map Bucket.deltaCount).getD 0 + 1 := by
  cases batch with
  | none =>
    rw [ingestBucket] at filled
    split at filled
    · cases filled
    · cases filled
      rfl
  | some old =>
    cases filled
    rfl

/-- Only a batch that is complete is put out. -/
theorem completes_of_emitted {hash : UInt32} {agg : Aggregator} {call : Call}
    (emitted : emittedFor hash (agg.apply call).2 ≠ []) : Completes hash agg call := by
  cases call with
  | ingest now pathHash crdtType data =>
    by_cases same : pathHash = hash
    · subst same
      refine ⟨rfl,?_⟩
      by_contra small
      refine emitted ?_
      rw [Aggregator.apply,Aggregator.ingest]
      dsimp only
      cases filled : ingestBucket now crdtType data agg.buckets[pathHash]? with
      | none => rfl
      | some bucket =>
        dsimp only
        rw [if_neg (deltaCount_ingestBucket filled ▸ small)]
        rfl
    · exact absurd (Aggregator.ingest_other agg now same crdtType data).2 emitted
  | flush =>
    rw [Completes,Option.isSome_iff_ne_none]
    intro none
    refine emitted ((Aggregator.emittedFor_flush agg hash).trans ?_)
    rw [none]
    rfl
  | flushIfReady now =>
    obtain ⟨_,_,_,out⟩ := Aggregator.foldl_flushPath
      ((agg.buckets.toList.filter (fun e => Aggregator.ready agg.config now e.2)).map Prod.fst) (agg,[]) hash
    by_cases flushed : hash ∈ (agg.buckets.toList.filter (fun e => Aggregator.ready agg.config now e.2)).map Prod.fst
    · obtain ⟨e,listed,rfl⟩ := List.mem_map.mp flushed
      obtain ⟨inside,ready⟩ := List.mem_filter.mp listed
      rw [Completes,ExtTreeMap.mem_toList_iff_getElem?_eq_some.mp inside]
      exact ready
    · rw [if_neg flushed] at out
      exact absurd out emitted

section
variable {hash : UInt32} {s : Relaying} {call : RelayCall}

/-- The batch holds a set and has room. -/
def OpenBatch (config : AggregatorConfig) (batch : Option Bucket) : Prop :=
  ∀ bucket, batch = some bucket →
    bucket.crdt = .orSet (batchSet batch) ∧ bucket.deltaCount ≠ 0 ∧ bucket.deltaCount < config.maxBatchSize

/-- Everything that is put out reaches the downstream set, and what the direct set
    has is downstream, on its way there or in the open batch. -/
structure Tracks (hash : UInt32) (s : Relaying) : Prop where
  full : s.node.config.forwardTier = .full
  forwards : s.node.forwards = true
  emits : s.node.aggregator.emits = true
  batch : OpenBatch s.node.aggregator.config s.node.aggregator.buckets[hash]?
  tags : ∀ key tag, tag ∈ tagsOf s.direct.entries key ↔
    tag ∈ tagsOf (ahead hash s).entries key ∨ tag ∈ tagsOf (batchSet s.node.aggregator.buckets[hash]?).entries key

theorem processQueue_eq {node : RelayNode} (forwards : node.forwards = true) :
    node.processQueue = ({ node with
      forwardQueue := []
      deltasForwarded := node.deltasForwarded + UInt64.ofNat node.forwardQueue.length },node.forwardQueue) := by
  rw [RelayNode.processQueue,if_pos forwards]

/-- A call passes to the aggregator, and what that puts out goes downstream. -/
theorem relayStep_spec (hash : UInt32) (call : RelayCall) (full : s.node.config.forwardTier = .full)
    (forwards : s.node.forwards = true) :
    (relayStep hash s call).node.config = s.node.config ∧ (relayStep hash s call).node.forwards = s.node.forwards ∧
      (relayStep hash s call).node.aggregator = (s.node.aggregator.apply call.aggregatorCall).1 ∧
      ahead hash (relayStep hash s call) =
        OrSet.mergeAll (ahead hash s) (emittedFor hash (s.node.aggregator.apply call.aggregatorCall).2) := by
  rw [ahead,ahead,← OrSet.mergeAll_append,← Aggregator.emittedFor_append]
  cases call with
  | receiveDelta now pathHash crdtType data sourceNode =>
    have received : (relayStep hash s (.receiveDelta now pathHash crdtType data sourceNode)).node =
      { s.node with
        deltasReceived := s.node.deltasReceived + 1
        lastSource := s.node.lastSource.insert pathHash sourceNode
        aggregator := (s.node.aggregator.ingest now pathHash crdtType data).1
        forwardQueue := s.node.forwardQueue ++ (s.node.aggregator.ingest now pathHash crdtType data).2 } :=
      RelayNode.onAggregator_full { s.node with
        deltasReceived := s.node.deltasReceived + 1
        lastSource := s.node.lastSource.insert pathHash sourceNode } full now _
    rw [received]
    exact ⟨rfl,rfl,rfl,rfl⟩
  | tick now =>
    have ticked : RelayCall.apply s.node (.tick now) = _ :=
      (congrArg RelayNode.processQueue (RelayNode.onAggregator_full s.node full now _)).trans (processQueue_eq forwards)
    rw [relayStep,ticked]
    exact ⟨rfl,rfl,rfl,rfl⟩
  | flush now =>
    have flushed : RelayCall.apply s.node (.flush now) = _ :=
      (congrArg RelayNode.processQueue (RelayNode.onAggregator_full s.node full now _)).trans (processQueue_eq forwards)
    rw [relayStep,flushed]
    exact ⟨rfl,rfl,rfl,rfl⟩

/-- A remove within the batch does there what it does in the direct set. -/
theorem tag_direct_step (tracks : Tracks hash s) (ok : SameBatch hash s call) (key : Bytes) (tag : OrSetTag) :
    tag ∈ tagsOf (relayStep hash s call).direct.entries key ↔
      tag ∈ tagsOf (ahead hash s).entries key ∨ tag ∈ tagsOf (batchAfter hash s call).entries key := by
  have merged : ∀ ds : List Bytes, ds.length ≤ 1 →
      (∀ d ∈ ds, ∀ tomb ∈ (OrSet.carried d).tombstones.toList, ∀ e ∈ (ahead hash s).entries.toList, tomb ∉ e.2) →
      (tag ∈ tagsOf (OrSet.mergeAll s.direct ds).entries key ↔ tag ∈ tagsOf (ahead hash s).entries key ∨
        tag ∈ tagsOf (OrSet.mergeAll (batchSet s.node.aggregator.buckets[hash]?) ds).entries key) := by
    intro ds single apart
    match ds, single with
    | [], _ => exact tracks.tags key tag
    | [d], _ =>
      have alive : tag ∈ tagsOf (ahead hash s).entries key → tag ∉ (OrSet.carried d).tombstones := by
        intro held dead
        obtain ⟨e,listed,_,member⟩ := (mem_tagsOf_iff _ _ _).mp held
        exact apart d (by simp) tag (ExtTreeSet.mem_toList.mpr dead) e listed member
      show tag ∈ tagsOf (s.direct.merge d).1.entries key ↔ _ ∨
        tag ∈ tagsOf ((batchSet s.node.aggregator.buckets[hash]?).merge d).1.entries key
      rw [OrSet.tag_mem_merge_carried,OrSet.tag_mem_merge_carried,tracks.tags key tag]
      tauto
  refine merged (payloads hash call.aggregatorCall) ?_ ok.1
  cases call with
  | receiveDelta now pathHash crdtType data sourceNode =>
    show (if pathHash = hash then [data] else []).length ≤ 1
    split
    · exact Nat.le_refl 1
    · exact Nat.zero_le 1
  | tick now => exact Nat.zero_le 1
  | flush now => exact Nat.zero_le 1

/-- A set's snapshot within the limits brings its tags and removes none. -/
theorem tag_mergeAll_snapshot (r : OrSet) {s : OrSet} (fits : OrSet.Fits s.entries ∅) (key : Bytes) (tag : OrSetTag) :
    tag ∈ tagsOf (OrSet.mergeAll r [s.snapshot]).entries key ↔ tag ∈ tagsOf r.entries key ∨ tag ∈ tagsOf s.entries key := by
  show tag ∈ tagsOf (r.merge (OrSet.encodeEntries s.entries ∅)).1.entries key ↔ _
  rw [OrSet.tag_mem_merge_carried,OrSet.mem_carried_entries fits,OrSet.carried_tombstones fits]
  simp

theorem ingest_set {config : AggregatorConfig} {batch : Option Bucket} (opened : OpenBatch config batch) (now : Nat)
    (data : Bytes) :
    ∃ bucket, ingestBucket now .orSet data batch = some bucket ∧
      bucket.crdt = .orSet ((batchSet batch).merge data).1 ∧ bucket.deltaCount ≠ 0 := by
  cases batch with
  | none => exact ⟨_,rfl,rfl,(by decide : (1 : UInt32) ≠ 0)⟩
  | some bucket =>
    obtain ⟨set,_,room⟩ := opened bucket rfl
    refine ⟨_,rfl,?_,count_ne_zero room⟩
    show (bucket.crdt.merge data).1 = _
    rw [set]
    rfl

theorem batchSet_of_crdt {bucket : Bucket} {s : OrSet} (set : bucket.crdt = .orSet s) : batchSet (some bucket) = s := by
  obtain ⟨crdtType,crdt,deltaCount,firstIngest⟩ := bucket
  cases set
  rfl

theorem openBatch_none (config : AggregatorConfig) : OpenBatch config none := by
  intro bucket found
  cases found

/-- Without a batch no tag is held back. -/
theorem not_mem_batchSet_none (key : Bytes) (tag : OrSetTag) : tag ∉ tagsOf (batchSet none).entries key := by
  intro member
  have empty : tag ∈ tagsOf ∅ key := member
  simp at empty

/-- What the call leaves in the batch, and what it puts out, is what the batch held
    with the payload in it. -/
theorem tag_ahead_step (tracks : Tracks hash s) (ok : SameBatch hash s call)
    (typed : ∀ now crdtType data, call.aggregatorCall = .ingest now hash crdtType data → crdtType = .orSet) :
    OpenBatch s.node.aggregator.config (s.node.aggregator.apply call.aggregatorCall).1.buckets[hash]? ∧
      ∀ key tag,
        (tag ∈ tagsOf (OrSet.mergeAll (ahead hash s)
            (emittedFor hash (s.node.aggregator.apply call.aggregatorCall).2)).entries key ∨
          tag ∈ tagsOf (batchSet (s.node.aggregator.apply call.aggregatorCall).1.buckets[hash]?).entries key) ↔
        tag ∈ tagsOf (ahead hash s).entries key ∨ tag ∈ tagsOf (batchAfter hash s call).entries key := by
  have fits : emittedFor hash (s.node.aggregator.apply call.aggregatorCall).2 ≠ [] →
      OrSet.Fits (batchAfter hash s call).entries ∅ := fun emitted => ok.2 (completes_of_emitted emitted)
  unfold batchAfter at fits ⊢
  generalize call.aggregatorCall = inner at fits typed ⊢
  rcases path_cases s.node.aggregator inner hash with ⟨none,kept,quiet⟩ | ⟨now,crdtType,data,rfl,filled,room,quiet⟩ |
    ⟨now,crdtType,data,bucket,rfl,filled,gone,emitted⟩ | ⟨none,gone,emitted⟩
  · rw [kept,quiet,none]
    exact ⟨tracks.batch,fun key tag => Iff.rfl⟩
  · obtain rfl := typed now crdtType data rfl
    obtain ⟨bucket,ingested,set,counted⟩ := ingest_set tracks.batch now data
    rw [ingested] at filled
    rw [payloads_ingest,filled,quiet]
    constructor
    · rintro bucket' ⟨⟩
      rw [batchSet_of_crdt set]
      exact ⟨set,counted,room bucket filled⟩
    · intro key tag
      rw [batchSet_of_crdt set]
      exact Iff.rfl
  · obtain rfl := typed now crdtType data rfl
    obtain ⟨bucket',ingested,set,counted⟩ := ingest_set tracks.batch now data
    rw [ingested] at filled
    cases filled
    rw [tracks.emits,putOut_of_counted counted,set] at emitted
    rw [payloads_ingest] at fits ⊢
    rw [gone,emitted]
    rw [emitted] at fits
    refine ⟨openBatch_none _,fun key tag => ?_⟩
    rw [or_iff_left (not_mem_batchSet_none key tag)]
    exact tag_mergeAll_snapshot _ (fits (by simp)) key tag
  · rw [pendingFor,tracks.emits] at emitted
    rw [none] at fits ⊢
    rw [gone]
    refine ⟨openBatch_none _,fun key tag => ?_⟩
    rw [or_iff_left (not_mem_batchSet_none key tag)]
    cases batch : s.node.aggregator.buckets[hash]? with
    | none =>
      rw [batch] at emitted
      rw [emitted]
      exact (or_iff_left (not_mem_batchSet_none key tag)).symm
    | some bucket =>
      obtain ⟨set,counted,_⟩ := tracks.batch bucket batch
      rw [batch] at set emitted fits
      rw [Option.map_some,Option.getD_some,putOut_of_counted counted,set] at emitted
      rw [emitted] at fits ⊢
      exact tag_mergeAll_snapshot _ (fits (by simp)) key tag

theorem tracks_step (tracks : Tracks hash s) (ok : SameBatch hash s call)
    (typed : ∀ now crdtType data, call.aggregatorCall = .ingest now hash crdtType data → crdtType = .orSet) :
    Tracks hash (relayStep hash s call) := by
  obtain ⟨config,forwards,aggregator,aheads⟩ := relayStep_spec hash call tracks.full tracks.forwards
  obtain ⟨aggConfig,emits⟩ := apply_config s.node.aggregator call.aggregatorCall
  obtain ⟨batch,tags⟩ := tag_ahead_step tracks ok typed
  refine ⟨by rw [config]; exact tracks.full,by rw [forwards]; exact tracks.forwards,?_,?_,fun key tag => ?_⟩
  · rw [aggregator,emits]
    exact tracks.emits
  · rw [aggregator,aggConfig]
    exact batch
  · rw [tag_direct_step tracks ok,aheads,aggregator]
    exact (tags key tag).symm

end

/-- A relay node with a callback and sets downstream of it and beside it. -/
def relaying (nodeId : UInt16) (config : RelayConfig) (receiver : OrSet) : Relaying :=
  ⟨(RelayNode.new nodeId config).setForwardCallback,receiver,receiver⟩

/-- Nothing of the path waits in the relay. -/
def Idle (hash : UInt32) (s : Relaying) : Prop :=
  s.node.aggregator.buckets[hash]?.isNone = true ∧ s.node.forwardQueue = []

instance (hash : UInt32) (s : Relaying) : Decidable (Idle hash s) := inferInstanceAs (Decidable (_ ∧ _))

/-- Where every remove reaches the relay before the adds it removes have left it, a
    set that merges what a relay forwards at full resolution ends with the elements
    of one that merges the deltas themselves. -/
theorem relay_keeps_removals (nodeId : UInt16) (config : RelayConfig) (full : config.forwardTier = .full)
    (receiver : OrSet) (hash : UInt32) (calls : List RelayCall)
    (typed : ∀ now crdtType data source, .receiveDelta now hash crdtType data source ∈ calls → crdtType = .orSet)
    (within : Along (relayStep hash) (SameBatch hash) (relaying nodeId config receiver) calls)
    (idle : Idle hash (run (relayStep hash) (relaying nodeId config receiver) calls)) (elem : Bytes) :
    (run (relayStep hash) (relaying nodeId config receiver) calls).downstream.contains elem =
      (run (relayStep hash) (relaying nodeId config receiver) calls).direct.contains elem := by
  have start : Tracks hash (relaying nodeId config receiver) := by
    have noBatch : (relaying nodeId config receiver).node.aggregator.buckets[hash]? = none := ExtTreeMap.getElem?_empty
    refine ⟨full,rfl,rfl,noBatch ▸ openBatch_none _,fun key tag => ?_⟩
    rw [noBatch]
    show _ ↔ _ ∨ tag ∈ tagsOf ∅ key
    simp [ahead,relaying,RelayNode.new,RelayNode.setForwardCallback,OrSet.mergeAll,emittedFor]
  have sets : ∀ call ∈ calls, ∀ now crdtType data,
      RelayCall.aggregatorCall call = .ingest now hash crdtType data → crdtType = .orSet := by
    intro call listed now crdtType data passes
    cases call with
    | receiveDelta now' pathHash crdtType' data' source =>
      cases passes
      exact typed _ _ _ _ listed
    | tick now' => cases passes
    | flush now' => cases passes
  have tracks := (within.and_of_forall sets).run_invariant (fun s call tracks ok => tracks_step tracks ok.1 ok.2) start
  have aheads : ahead hash (run (relayStep hash) (relaying nodeId config receiver) calls) =
      (run (relayStep hash) (relaying nodeId config receiver) calls).downstream := by
    rw [ahead,idle.2]
    rfl
  rw [Bool.eq_iff_iff,OrSet.contains_iff,OrSet.contains_iff]
  refine exists_congr (fun tag => ?_)
  rw [tracks.tags,aheads,Option.isNone_iff_eq_none.mp idle.1]
  show _ ↔ _ ∨ tag ∈ tagsOf ∅ elem
  simp

/-- An element is added, and once the relay has flushed it, removed. -/
def removedLater : List RelayCall :=
  [.receiveDelta 0 5 .orSet ((OrSet.new 1).add [120]).delta.1 1,.flush 10,
    .receiveDelta 20 5 .orSet ((((OrSet.new 1).add [120]).delta.2.remove [120]).1.delta.1) 1,.flush 30]

/-- A remove that comes in a later batch than its add does not get past the relay. -/
theorem remove_lost_in_relay :
    Idle 5 (run (relayStep 5) (relaying 7 {} (.new 9)) removedLater) ∧
      (run (relayStep 5) (relaying 7 {} (.new 9)) removedLater).downstream.contains [120] = true ∧
      (run (relayStep 5) (relaying 7 {} (.new 9)) removedLater).direct.contains [120] = false := by
  decide +kernel

/-- The add and the remove in one batch, then another add. -/
def removedAtOnce : List RelayCall :=
  [.receiveDelta 0 5 .orSet ((OrSet.new 1).add [120]).delta.1 1,
    .receiveDelta 10 5 .orSet ((((OrSet.new 1).add [120]).delta.2.remove [120]).1.delta.1) 1,.flush 20,
    .receiveDelta 30 5 .orSet ((OrSet.new 2).add [121]).delta.1 2,.tick 60000]

theorem relay_keeps_removals_at_once :
    Idle 5 (run (relayStep 5) (relaying 7 {} (.new 9)) removedAtOnce) ∧
      ∀ elem, (run (relayStep 5) (relaying 7 {} (.new 9)) removedAtOnce).downstream.contains elem =
        (run (relayStep 5) (relaying 7 {} (.new 9)) removedAtOnce).direct.contains elem := by
  have idle : Idle 5 (run (relayStep 5) (relaying 7 {} (.new 9)) removedAtOnce) := by decide +kernel
  refine ⟨idle,relay_keeps_removals 7 {} rfl (.new 9) 5 removedAtOnce ?_ (by decide +kernel) idle⟩
  intro now crdtType data source member
  simp only [removedAtOnce,List.mem_cons,RelayCall.receiveDelta.injEq,reduceCtorEq,List.not_mem_nil,or_false,false_or]
    at member
  rcases member with ⟨_,_,type,_⟩ | ⟨_,_,type,_⟩ | ⟨_,_,type,_⟩
  · exact type
  · exact type
  · exact type

end RelayRuns
end Rom
