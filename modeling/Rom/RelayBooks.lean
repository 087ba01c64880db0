import Rom.Relay
import Rom.Runs

/-!
The books of a relay. Beside a relay node it is noted which deltas have arrived,
which of them are in the open batch of each path, which batches have been
completed, because their bucket is gone, and what the aggregator has put out.
Over every run of calls the books balance (`accounts_exact`): every delta is in
one batch, of its own path, each completed batch has one emission, whose data is
the merge of its deltas, and the counters of the node and of its aggregator agree
with them.
-/
namespace Rom.RelayBooks
open Std Rom.Runs

/-- A call on a relay node; a delta that it receives is of a supported type. -/
inductive Call where
  | receiveDelta (now : Nat) (pathHash : UInt32) (crdtType : CrdtType) (data : Bytes) (sourceNode : UInt16)
      (supported : (Aggregator.createCrdt crdtType).isSome)
  | tick (now : Nat)
  | flush (now : Nat)
  | setConfig (config : RelayConfig)

/-- A delta that has arrived, with the number of those before it. -/
structure Delta where
  number : ℕ
  path : UInt32
  data : Bytes
  deriving DecidableEq, Repr

/-- Deltas that are merged with each other. -/
structure Batch where
  path : UInt32
  deltas : List Delta
  deriving DecidableEq, Repr

structure Books where
  node : RelayNode
  arrived : List Delta := []
  /-- The deltas in the open batch of a path. -/
  opened : UInt32 → List Delta := fun _ => []
  completed : List Batch := []
  /-- What the aggregator has put out. -/
  emitted : List Emission := []

namespace Books

def buckets (s : Books) : ExtTreeMap UInt32 Bucket := s.node.aggregator.buckets

/-- A new node with a callback for what is forwarded. -/
def begin (nodeId : UInt16) (config : RelayConfig) : Books := { node := (RelayNode.new nodeId config).setForwardCallback }

/-- A delta has arrived. If its path has a bucket afterwards, the delta is in the
    open batch; otherwise it has completed that batch. -/
def received (s : Books) (delta : Delta) (node : RelayNode) (emissions : List Emission) : Books :=
  { node := node
    arrived := s.arrived ++ [delta]
    opened := Function.update s.opened delta.path
      (if node.aggregator.buckets.contains delta.path then s.opened delta.path ++ [delta] else [])
    completed := s.completed ++
      if node.aggregator.buckets.contains delta.path then [] else [⟨delta.path,s.opened delta.path ++ [delta]⟩]
    emitted := s.emitted ++ emissions }

/-- The paths whose bucket is gone. -/
def gone (before after : ExtTreeMap UInt32 Bucket) : List UInt32 := before.keys.filter (fun hash => !after.contains hash)

/-- Buckets have been flushed: the batches of those that are gone are completed. -/
def swept (s : Books) (node : RelayNode) (emissions : List Emission) : Books :=
  { node := node
    arrived := s.arrived
    opened := fun hash => if hash ∈ gone s.buckets node.aggregator.buckets then [] else s.opened hash
    completed := s.completed ++ (gone s.buckets node.aggregator.buckets).map (fun hash => ⟨hash,s.opened hash⟩)
    emitted := s.emitted ++ emissions }

def step (s : Books) : Call → Books
  | .receiveDelta now pathHash crdtType data sourceNode _ =>
    s.received ⟨s.arrived.length,pathHash,data⟩ (s.node.receiveDelta now pathHash crdtType data sourceNode)
      (s.node.aggregator.ingest now pathHash crdtType data).2
  | .tick now => s.swept (s.node.tick now).1 (s.node.aggregator.flushIfReady now).1.2
  | .flush now => s.swept (s.node.flush now).1.1 s.node.aggregator.flush.1.2
  | .setConfig config => { s with node := s.node.setConfig config }

/-- The completed batches and the open ones. -/
def batches (s : Books) : List Batch := s.completed ++ s.buckets.keys.map (fun hash => ⟨hash,s.opened hash⟩)

/-- The deltas in completed batches and those that the open buckets count. -/
def deltaCounts (s : Books) : ℕ :=
  (s.completed.map (fun batch => batch.deltas.length)).sum + (s.buckets.toList.map (fun e => e.2.deltaCount.toNat)).sum

end Books
open Books

/-- What has been forwarded or filtered or is queued. -/
def accounted (node : RelayNode) : UInt64 :=
  node.deltasForwarded + node.deltasFiltered + UInt64.ofNat node.forwardQueue.length

/-- A new value of a type with the deltas merged into it. -/
def merged (crdtType : CrdtType) (deltas : List Delta) : Option Crdt :=
  (Aggregator.createCrdt crdtType).map fun fresh => deltas.foldl (fun c delta => (c.merge delta.data).1) fresh

/-- The emission is that of the batch. -/
def EmissionOf (batch : Batch) (emission : Emission) : Prop :=
  emission.pathHash = batch.path ∧ (merged emission.crdtType batch.deltas).map Crdt.snapshot = some emission.data

structure Exact (s : Books) : Prop where
  numbered : s.arrived.map Delta.number = List.range s.arrived.length
  /-- Each delta is in one batch, once. -/
  once : (s.batches.flatMap Batch.deltas).Perm s.arrived
  ownPath : ∀ batch ∈ s.batches, ∀ delta ∈ batch.deltas, delta.path = batch.path
  /-- The emissions are those of the completed batches, one for each. -/
  emissions : List.Forall₂ EmissionOf s.completed s.emitted
  totalEmitted : s.node.aggregator.totalEmitted = accounted s.node
  received : UInt64.ofNat s.deltaCounts = s.node.deltasReceived

/-! ### The node and its counters -/

/-- What is left of a node when its aggregator has come to `out` and has put
    something out. -/
structure Moved (before after : RelayNode) (out : Aggregator × List Emission) : Prop where
  aggregator : after.aggregator = out.1
  forwards : after.forwards = before.forwards
  received : after.deltasReceived = before.deltasReceived
  balance : accounted after = accounted before + UInt64.ofNat out.2.length

theorem accounted_queued (node : RelayNode) (emission : Emission) :
    accounted { node with forwardQueue := node.forwardQueue ++ [emission] } = accounted node + 1 := by
  simp only [accounted,List.length_append,List.length_singleton,UInt64.ofNat_add]
  exact (UInt64.add_assoc _ _ _).symm

theorem moved_onAggregatorEmit (now : Nat) (node : RelayNode) (emission : Emission) :
    Moved node (node.onAggregatorEmit now emission) (node.aggregator,[emission]) := by
  unfold RelayNode.onAggregatorEmit
  split
  · dsimp only
    split
    · exact ⟨rfl,rfl,rfl,accounted_queued { node with filter := _ } emission⟩
    · refine ⟨rfl,rfl,rfl,?_⟩
      simp only [accounted]
      ac_rfl
  · exact ⟨rfl,rfl,rfl,accounted_queued node emission⟩

theorem moved_foldl_onAggregatorEmit (now : Nat) (node : RelayNode) (emissions : List Emission) :
    Moved node (emissions.foldl (RelayNode.onAggregatorEmit now) node) (node.aggregator,emissions) := by
  induction emissions generalizing node with
  | nil => exact ⟨rfl,rfl,rfl,(UInt64.add_zero _).symm⟩
  | cons emission emissions ih =>
    have first := moved_onAggregatorEmit now node emission
    have rest := ih (node.onAggregatorEmit now emission)
    refine ⟨rest.aggregator.trans first.aggregator,rest.forwards.trans first.forwards,
      rest.received.trans first.received,?_⟩
    rw [List.foldl_cons,rest.balance,first.balance,UInt64.add_assoc,← UInt64.ofNat_add,List.length_cons,Nat.add_comm]
    rfl

theorem moved_onAggregator (now : Nat) (node : RelayNode) (out : Aggregator × List Emission) :
    Moved node (node.onAggregator now out) out := by
  obtain ⟨aggregator,forwards,received,balance⟩ := moved_foldl_onAggregatorEmit now { node with aggregator := out.1 } out.2
  exact ⟨aggregator,forwards,received,balance⟩

/-- With a callback set, forwarding the queue moves it from one account to another. -/
theorem Moved.processQueue {before after : RelayNode} {out : Aggregator × List Emission}
    (moved : Moved before after out) (forwards : before.forwards = true) :
    Moved before after.processQueue.1 out := by
  unfold RelayNode.processQueue
  rw [if_pos (moved.forwards.trans forwards)]
  refine ⟨moved.aggregator,moved.forwards,moved.received,?_⟩
  rw [← moved.balance]
  simp only [accounted,List.length_nil]
  ac_rfl

theorem forwardQueue_processQueue (node : RelayNode) : node.processQueue.1.forwardQueue = [] := by
  unfold RelayNode.processQueue
  split
  · rfl
  · rfl

/-! ### The aggregator -/

theorem totalEmitted_flushPath (st : Aggregator × List Emission) (hash : UInt32) :
    ∃ l, (Aggregator.flushPath st hash).2 = st.2 ++ l ∧
      (Aggregator.flushPath st hash).1.totalEmitted = st.1.totalEmitted + UInt64.ofNat l.length := by
  unfold Aggregator.flushPath
  split
  · exact ⟨[],(List.append_nil _).symm,(UInt64.add_zero _).symm⟩
  · exact ⟨_,rfl,rfl⟩

theorem totalEmitted_foldl_flushPath (hashes : List UInt32) (st : Aggregator × List Emission) :
    ∃ l, (hashes.foldl Aggregator.flushPath st).2 = st.2 ++ l ∧
      (hashes.foldl Aggregator.flushPath st).1.totalEmitted = st.1.totalEmitted + UInt64.ofNat l.length := by
  induction hashes generalizing st with
  | nil => exact ⟨[],(List.append_nil _).symm,(UInt64.add_zero _).symm⟩
  | cons hash hashes ih =>
    obtain ⟨first,emitted,total⟩ := totalEmitted_flushPath st hash
    obtain ⟨rest,emitted',total'⟩ := ih (Aggregator.flushPath st hash)
    refine ⟨first ++ rest,?_,?_⟩
    · rw [List.foldl_cons,emitted',emitted,List.append_assoc]
    · rw [List.foldl_cons,total',total,List.length_append,UInt64.ofNat_add,UInt64.add_assoc]

/-- The aggregator counts what it puts out. -/
theorem totalEmitted_apply (agg : Aggregator) (call : Aggregator.Call) :
    (agg.apply call).1.totalEmitted = agg.totalEmitted + UInt64.ofNat (agg.apply call).2.length := by
  cases call with
  | ingest now pathHash crdtType data =>
    unfold Aggregator.apply Aggregator.ingest
    dsimp only
    split
    · exact (UInt64.add_zero _).symm
    · split
      · rfl
      · exact (UInt64.add_zero _).symm
  | flush => rfl
  | flushIfReady now =>
    obtain ⟨l,emitted,total⟩ := totalEmitted_foldl_flushPath
      ((agg.buckets.toList.filter (fun e => Aggregator.ready agg.config now e.2)).map Prod.fst) (agg,[])
    have all : l = (agg.apply (.flushIfReady now)).2 := emitted.symm
    rw [← all]
    exact total

/-- The accounts still balance after a call on the aggregator. -/
theorem Moved.totalEmitted {before after : RelayNode} (call : Aggregator.Call)
    (moved : Moved before after (before.aggregator.apply call))
    (balanced : before.aggregator.totalEmitted = accounted before) : after.aggregator.totalEmitted = accounted after := by
  rw [moved.aggregator,totalEmitted_apply,balanced,moved.balance]

/-- Flushing the bucket puts out one emission, that of the deltas. -/
def Flushes (deltas : List Delta) (hash : UInt32) (bucket : Bucket) : Prop :=
  List.Forall₂ EmissionOf [⟨hash,deltas⟩] (Aggregator.flushBucket true hash bucket)

/-- A bucket that counts something puts out its value. -/
theorem flushes_of_merged {bucket : Bucket} {deltas : List Delta} (counts : 0 < bucket.deltaCount.toNat)
    (holds : merged bucket.crdtType deltas = some bucket.crdt) (hash : UInt32) : Flushes deltas hash bucket := by
  have some : bucket.deltaCount ≠ 0 := by
    rintro none
    rw [none] at counts
    cases counts
  rw [Flushes,Aggregator.flushBucket,if_neg some,Aggregator.isEmpty_snapshot]
  refine .cons ⟨rfl,?_⟩ .nil
  rw [holds]
  rfl

theorem emissionOf_flush {agg : Aggregator} (emits : agg.emits = true) {opened : UInt32 → List Delta}
    (flushes : ∀ (hash : UInt32) bucket, agg.buckets[hash]? = some bucket → Flushes (opened hash) hash bucket) :
    List.Forall₂ EmissionOf (agg.buckets.keys.map fun hash => ⟨hash,opened hash⟩) agg.flush.1.2 := by
  have each : ∀ l : List (UInt32 × Bucket), (∀ e ∈ l, Flushes (opened e.1) e.1 e.2) →
      List.Forall₂ EmissionOf (l.map fun e => ⟨e.1,opened e.1⟩)
        (l.flatMap fun e => Aggregator.flushBucket agg.emits e.1 e.2) := by
    intro l all
    induction l with
    | nil => exact .nil
    | cons e l ih =>
      rw [List.flatMap_cons,emits]
      rw [emits] at ih
      exact List.rel_append (all e List.mem_cons_self) (ih fun e' listed => all e' (List.mem_cons_of_mem _ listed))
  rw [← ExtTreeMap.map_fst_toList_eq_keys,List.map_map]
  exact each _ fun e listed => flushes e.1 e.2 (ExtTreeMap.mem_toList_iff_getElem?_eq_some.mp listed)

/-- Flushing some paths, each of which has a batch, puts out one emission for each. -/
theorem emissionOf_foldl_flushPath {hashes : List UInt32} (distinct : hashes.Nodup) {opened : UInt32 → List Delta}
    {completed : List Batch} (st : Aggregator × List Emission) (emits : st.1.emits = true)
    (emitted : List.Forall₂ EmissionOf completed st.2)
    (flushes : ∀ hash ∈ hashes, ∃ bucket, st.1.buckets[hash]? = some bucket ∧ Flushes (opened hash) hash bucket) :
    List.Forall₂ EmissionOf (completed ++ hashes.map fun hash => ⟨hash,opened hash⟩)
      (hashes.foldl Aggregator.flushPath st).2 := by
  induction hashes generalizing st completed with
  | nil =>
    rw [List.map_nil,List.append_nil]
    exact emitted
  | cons first hashes ih =>
    obtain ⟨notFirst,distinct⟩ := List.nodup_cons.mp distinct
    obtain ⟨bucket,found,flushed⟩ := flushes first List.mem_cons_self
    have put : (Aggregator.flushPath st first).2 = st.2 ++ Aggregator.flushBucket true first bucket := by
      rw [Aggregator.flushPath,found,← emits]
      rfl
    rw [List.map_cons,List.append_cons,List.foldl_cons]
    apply ih distinct
    · rw [(Aggregator.flushPath_spec st first 0).2.1,emits]
    · rw [put]
      exact List.rel_append emitted flushed
    · intro hash listed
      have other : first ≠ hash := fun same => notFirst (same ▸ listed)
      obtain ⟨bucket,found,flushed⟩ := flushes hash (List.mem_cons_of_mem _ listed)
      refine ⟨bucket,?_,flushed⟩
      rw [(Aggregator.flushPath_spec st first hash).2.2.1,if_neg other,found]

/-! ### The batches -/

/-- The bucket has the value and the count of some deltas. -/
structure Holds (deltas : List Delta) (bucket : Bucket) : Prop where
  value : merged bucket.crdtType deltas = some bucket.crdt
  count : bucket.deltaCount.toNat = deltas.length

/-- The bucket of a path, or that it has none, agrees with the deltas in its batch;
    there is room for one more in the counter of 32 bits. -/
def Agrees (deltas : List Delta) : Option Bucket → Prop
  | none => deltas = []
  | some bucket => Holds deltas bucket ∧ 0 < deltas.length ∧ deltas.length + 1 < 2^32

theorem Holds.flushes {deltas : List Delta} {bucket : Bucket} (holds : Holds deltas bucket) (some : 0 < deltas.length)
    (hash : UInt32) : Flushes deltas hash bucket :=
  flushes_of_merged (holds.count ▸ some) holds.value hash

theorem merged_concat {crdtType : CrdtType} {deltas : List Delta} {crdt : Crdt} (value : merged crdtType deltas = some crdt)
    (delta : Delta) : merged crdtType (deltas ++ [delta]) = some (crdt.merge delta.data).1 := by
  obtain ⟨fresh,created,folded⟩ := Option.map_eq_some_iff.mp value
  rw [merged,created,Option.map_some,List.foldl_append,folded]
  rfl

theorem ingestBucket_holds {deltas : List Delta} {found : Option Bucket} (agrees : Agrees deltas found) (now : Nat)
    {crdtType : CrdtType} (supported : (Aggregator.createCrdt crdtType).isSome) (delta : Delta) :
    ∃ bucket, Aggregator.ingestBucket now crdtType delta.data found = some bucket ∧ Holds (deltas ++ [delta]) bucket := by
  cases found with
  | none =>
    obtain ⟨crdt,created⟩ := Option.isSome_iff_exists.mp supported
    have empty : merged crdtType [] = some crdt := by
      rw [merged,created]
      rfl
    refine ⟨⟨crdtType,(crdt.merge delta.data).1,1,now⟩,?_,?_⟩
    · rw [Aggregator.ingestBucket,created]
    · rw [show deltas = [] from agrees]
      exact ⟨merged_concat empty delta,rfl⟩
  | some bucket =>
    obtain ⟨holds,_,room⟩ := agrees
    refine ⟨_,rfl,merged_concat holds.value delta,?_⟩
    show (bucket.deltaCount + 1).toNat = (deltas ++ [delta]).length
    rw [UInt32.toNat_add,holds.count,List.length_append]
    exact Nat.mod_eq_of_lt room

theorem getElem?_eq_none_iff_not_mem {m : ExtTreeMap UInt32 Bucket} {hash : UInt32} : m[hash]? = none ↔ hash ∉ m := by
  rw [ExtTreeMap.mem_iff_isSome_getElem?,Option.not_isSome_iff_eq_none]

theorem keys_perm_erase (m : ExtTreeMap UInt32 Bucket) {hash : UInt32} (present : hash ∈ m) :
    m.keys.Perm (hash :: (m.erase hash).keys) := by
  rw [List.perm_ext_iff_of_nodup ExtTreeMap.nodup_keys]
  · intro other
    by_cases same : hash = other
    · simp [← same,present]
    · simp [same,Ne.symm same]
  · rw [List.nodup_cons]
    exact ⟨by simp,ExtTreeMap.nodup_keys⟩

theorem keys_perm_gone {before after : ExtTreeMap UInt32 Bucket} (fewer : ∀ hash ∈ after, hash ∈ before) :
    before.keys.Perm (gone before after ++ after.keys) := by
  have kept : after.keys.Perm (before.keys.filter (fun hash => !!after.contains hash)) := by
    rw [List.perm_ext_iff_of_nodup ExtTreeMap.nodup_keys (ExtTreeMap.nodup_keys.filter _)]
    intro hash
    simp only [ExtTreeMap.mem_keys,List.mem_filter,Bool.not_not,ExtTreeMap.contains_iff_mem]
    exact ⟨fun present => ⟨fewer hash present,present⟩,And.right⟩
  exact (List.filter_append_perm _ _).symm.trans (kept.symm.append_left _)

/-- The invariant of the books. -/
structure Kept (s : Books) : Prop where
  forwards : s.node.forwards = true
  emits : s.node.aggregator.emits = true
  agrees : ∀ hash, Agrees (s.opened hash) s.buckets[hash]?
  numbered : s.arrived.map Delta.number = List.range s.arrived.length
  once : (s.batches.flatMap Batch.deltas).Perm s.arrived
  ownPath : ∀ batch ∈ s.batches, ∀ delta ∈ batch.deltas, delta.path = batch.path
  emissions : List.Forall₂ EmissionOf s.completed s.emitted
  totalEmitted : s.node.aggregator.totalEmitted = accounted s.node
  received : UInt64.ofNat s.arrived.length = s.node.deltasReceived

theorem kept_begin (nodeId : UInt16) (config : RelayConfig) : Kept (begin nodeId config) where
  forwards := rfl
  emits := rfl
  agrees := by
    intro hash
    show Agrees [] (∅ : ExtTreeMap UInt32 Bucket)[hash]?
    rw [ExtTreeMap.getElem?_empty]
    rfl
  numbered := rfl
  once := by
    show (([] ++ (∅ : ExtTreeMap UInt32 Bucket).keys.map _).flatMap Batch.deltas).Perm []
    simp
  ownPath := by
    intro batch listed
    simp [batches,begin,buckets,RelayNode.new,RelayNode.setForwardCallback] at listed
  emissions := .nil
  totalEmitted := rfl
  received := rfl

namespace Kept
variable {s : Books}

theorem flushes (kept : Kept s) (hash : UInt32) (bucket : Bucket)
    (found : s.node.aggregator.buckets[hash]? = some bucket) : Flushes (s.opened hash) hash bucket := by
  have agrees := kept.agrees hash
  rw [buckets,found] at agrees
  exact agrees.1.flushes agrees.2.1 hash

/-- The batches other than the open one of a path. -/
def rest (s : Books) (hash : UInt32) : List Batch :=
  s.completed ++ (s.buckets.erase hash).keys.map (fun hash => ⟨hash,s.opened hash⟩)

theorem batches_perm {hash : UInt32} (present : hash ∈ s.buckets) :
    s.batches.Perm (⟨hash,s.opened hash⟩ :: rest s hash) := by
  refine (((keys_perm_erase s.buckets present).map _).append_left s.completed).trans ?_
  exact List.perm_middle

theorem batches_eq_rest {hash : UInt32} (absent : hash ∉ s.buckets) : s.batches = rest s hash := by
  have same : s.buckets.erase hash = s.buckets := by
    apply ExtTreeMap.ext_getElem?
    intro other
    rw [ExtTreeMap.getElem?_erase]
    split
    · rename_i equal
      rw [← compare_eq_iff_eq.mp equal]
      exact (ExtTreeMap.getElem?_eq_none absent).symm
    · rfl
  rw [rest,same,batches]

/-- The deltas in all batches are those in the open batch of a path and those in
    the others. -/
theorem deltas_perm (kept : Kept s) (hash : UInt32) :
    (s.batches.flatMap Batch.deltas).Perm (s.opened hash ++ (rest s hash).flatMap Batch.deltas) := by
  by_cases present : hash ∈ s.buckets
  · exact (batches_perm present).flatMap_right _
  · have empty := kept.agrees hash
    rw [ExtTreeMap.getElem?_eq_none present] at empty
    rw [show s.opened hash = [] from empty,batches_eq_rest present]
    exact .refl _

theorem mem_of_rest {hash : UInt32} {batch : Batch} (listed : batch ∈ rest s hash) : batch ∈ s.batches := by
  by_cases present : hash ∈ s.buckets
  · exact (batches_perm present).mem_iff.mpr (List.mem_cons_of_mem _ listed)
  · rw [batches_eq_rest present]
    exact listed

/-- The deltas in the open batch of a path are of that path. -/
theorem path_of_opened (kept : Kept s) {hash : UInt32} {delta : Delta} (listed : delta ∈ s.opened hash) :
    delta.path = hash := by
  by_cases present : hash ∈ s.buckets
  · exact kept.ownPath ⟨hash,s.opened hash⟩ ((batches_perm present).mem_iff.mpr List.mem_cons_self) delta listed
  · have empty := kept.agrees hash
    rw [ExtTreeMap.getElem?_eq_none present] at empty
    rw [show s.opened hash = [] from empty] at listed
    cases listed

theorem opened_received (s : Books) {delta : Delta} {other : UInt32} (different : other ≠ delta.path) (node : RelayNode)
    (emissions : List Emission) : (s.received delta node emissions).opened other = s.opened other :=
  Function.update_of_ne different _ _

/-- A delta is put to the open batch of its path, whether it completes it or not. -/
theorem batches_received_perm (s : Books) {delta : Delta} {node : RelayNode} (emissions : List Emission)
    (others : node.aggregator.buckets.erase delta.path = s.buckets.erase delta.path) :
    (s.received delta node emissions).batches.Perm
      (⟨delta.path,s.opened delta.path ++ [delta]⟩ :: rest s delta.path) := by
  have unchanged : ((s.received delta node emissions).buckets.erase delta.path).keys.map
      (fun other => (⟨other,(s.received delta node emissions).opened other⟩ : Batch)) =
      (s.buckets.erase delta.path).keys.map (fun other => ⟨other,s.opened other⟩) := by
    rw [show (s.received delta node emissions).buckets.erase delta.path = s.buckets.erase delta.path from others]
    refine List.map_congr_left fun other listed => ?_
    have different : other ≠ delta.path := by
      rintro rfl
      simp at listed
    rw [opened_received s different]
  by_cases present : delta.path ∈ node.aggregator.buckets
  · have listed := ExtTreeMap.contains_iff_mem.mpr present
    refine (batches_perm (s := s.received delta node emissions) present).trans (.of_eq ?_)
    rw [rest,unchanged,rest]
    simp only [Books.received,listed,if_true,Function.update_self,List.append_nil]
  · have unlisted : node.aggregator.buckets.contains delta.path = false :=
      Bool.eq_false_iff.mpr fun listed => present (ExtTreeMap.contains_iff_mem.mp listed)
    rw [batches_eq_rest (s := s.received delta node emissions) present,rest,unchanged,rest]
    simp only [Books.received,unlisted,Bool.false_eq_true,if_false,List.append_assoc,List.singleton_append]
    exact List.perm_middle

theorem once_received (kept : Kept s) {delta : Delta} {node : RelayNode} (emissions : List Emission)
    (others : node.aggregator.buckets.erase delta.path = s.buckets.erase delta.path) :
    ((s.received delta node emissions).batches.flatMap Batch.deltas).Perm (s.arrived ++ [delta]) := by
  refine ((batches_received_perm s emissions others).flatMap_right _).trans ?_
  calc (s.opened delta.path ++ [delta]) ++ (rest s delta.path).flatMap Batch.deltas
    _ = s.opened delta.path ++ delta :: (rest s delta.path).flatMap Batch.deltas := (List.append_cons ..).symm
    List.Perm _ (delta :: (s.opened delta.path ++ (rest s delta.path).flatMap Batch.deltas)) := List.perm_middle
    List.Perm _ (delta :: s.arrived) := ((kept.deltas_perm delta.path).symm.trans kept.once).cons _
    List.Perm _ (s.arrived ++ [delta]) := (List.perm_append_singleton _ _).symm

theorem ownPath_received (kept : Kept s) {delta : Delta} {node : RelayNode} (emissions : List Emission)
    (others : node.aggregator.buckets.erase delta.path = s.buckets.erase delta.path) :
    ∀ batch ∈ (s.received delta node emissions).batches, ∀ other ∈ batch.deltas, other.path = batch.path := by
  intro batch listed other held
  rcases List.mem_cons.mp ((batches_received_perm s emissions others).mem_iff.mp listed) with rfl | listed
  · rcases List.mem_append.mp held with old | new
    · exact kept.path_of_opened old
    · rw [List.mem_singleton.mp new]
  · exact kept.ownPath batch (mem_of_rest listed) other held

/-- The aggregator takes a delta: its batch is completed and put out, or it is open. -/
theorem ingest_cases (kept : Kept s) (now : Nat) {crdtType : CrdtType}
    (supported : (Aggregator.createCrdt crdtType).isSome) (delta : Delta) :
    ((s.node.aggregator.ingest now delta.path crdtType delta.data).1.buckets = s.buckets.erase delta.path ∧
      List.Forall₂ EmissionOf [⟨delta.path,s.opened delta.path ++ [delta]⟩]
        (s.node.aggregator.ingest now delta.path crdtType delta.data).2) ∨
    ∃ bucket, Agrees (s.opened delta.path ++ [delta]) (some bucket) ∧
      (s.node.aggregator.ingest now delta.path crdtType delta.data).1.buckets = s.buckets.insert delta.path bucket ∧
      (s.node.aggregator.ingest now delta.path crdtType delta.data).2 = [] := by
  obtain ⟨bucket,filled,holds⟩ := ingestBucket_holds (kept.agrees delta.path) now supported delta
  have some : 0 < (s.opened delta.path ++ [delta]).length := by
    rw [List.length_append]
    exact Nat.succ_pos _
  rcases Aggregator.ingest_cases s.node.aggregator now delta.path crdtType delta.data with
    ⟨refused,_⟩ | ⟨bucket',filled',taken⟩
  · rw [buckets,refused] at filled
    cases filled
  · rw [buckets,filled'] at filled
    cases filled
    rcases taken with ⟨erased,emitted⟩ | ⟨room,inserted,emitted⟩
    · rw [emitted,kept.emits]
      exact .inl ⟨erased,holds.flushes some delta.path⟩
    · have small := UInt32.lt_iff_toNat_lt.mp room
      have width := s.node.aggregator.config.maxBatchSize.toNat_lt
      rw [holds.count] at small
      exact .inr ⟨bucket,⟨holds,some,by omega⟩,inserted,emitted⟩

/-- Two tables that agree apart from a path, and the same after it is erased. -/
theorem erase_eq_iff {m m' : ExtTreeMap UInt32 Bucket} {hash : UInt32} :
    m.erase hash = m'.erase hash ↔ ∀ other, other ≠ hash → m[other]? = m'[other]? := by
  constructor
  · intro others other different
    have same := congrArg (fun m : ExtTreeMap UInt32 Bucket => m[other]?) others
    simpa [ExtTreeMap.getElem?_erase,different.symm] using same
  · intro others
    apply ExtTreeMap.ext_getElem?
    intro other
    by_cases same : other = hash
    · simp [same]
    · simpa [ExtTreeMap.getElem?_erase,Ne.symm same] using others other same

/-- A node that has taken a delta, and has put out its batch or kept it, keeps the
    invariant. -/
theorem received_of_others (kept : Kept s) {delta : Delta} {node : RelayNode} {out : Aggregator × List Emission}
    (next : delta.number = s.arrived.length)
    (moved : Moved { s.node with deltasReceived := s.node.deltasReceived + 1 } node out) (emits : out.1.emits = true)
    (total : node.aggregator.totalEmitted = accounted node)
    (others : out.1.buckets.erase delta.path = s.buckets.erase delta.path)
    (own : Agrees (if out.1.buckets.contains delta.path then s.opened delta.path ++ [delta] else [])
      out.1.buckets[delta.path]?)
    (emitted : List.Forall₂ EmissionOf
      (if out.1.buckets.contains delta.path then [] else [⟨delta.path,s.opened delta.path ++ [delta]⟩]) out.2) :
    Kept (s.received delta node out.2) := by
  obtain ⟨aggregator,forwards,news,-⟩ := moved
  rw [← aggregator] at emits others own emitted
  refine ⟨forwards.trans kept.forwards,emits,?_,?_,once_received kept out.2 others,ownPath_received kept out.2 others,
    List.rel_append kept.emissions emitted,total,?_⟩
  · intro other
    by_cases same : other = delta.path
    · subst same
      show Agrees (Function.update s.opened delta.path _ delta.path) _
      rw [Function.update_self]
      exact own
    · rw [opened_received s same]
      show Agrees _ node.aggregator.buckets[other]?
      rw [erase_eq_iff.mp others other same]
      exact kept.agrees other
  · show (s.arrived ++ [delta]).map _ = List.range (s.arrived ++ [delta]).length
    rw [List.map_append,kept.numbered,List.length_append,List.length_singleton,List.range_succ,← next]
    rfl
  · show UInt64.ofNat (s.arrived ++ [delta]).length = node.deltasReceived
    rw [news,List.length_append,UInt64.ofNat_add,kept.received]
    rfl

theorem moved_receiveDelta (node : RelayNode) (now : Nat) (hash : UInt32) (crdtType : CrdtType) (data : Bytes)
    (sourceNode : UInt16) :
    Moved { node with deltasReceived := node.deltasReceived + 1 } (node.receiveDelta now hash crdtType data sourceNode)
      (node.aggregator.ingest now hash crdtType data) := by
  obtain ⟨aggregator,forwards,received,balance⟩ := moved_onAggregator now
    { node with deltasReceived := node.deltasReceived + 1, lastSource := node.lastSource.insert hash sourceNode }
    (node.aggregator.ingest now hash crdtType data)
  exact ⟨aggregator,forwards,received,balance⟩

theorem receiveDelta (kept : Kept s) (now : Nat) (hash : UInt32) {crdtType : CrdtType} (data : Bytes)
    (sourceNode : UInt16) (supported : (Aggregator.createCrdt crdtType).isSome) :
    Kept (step s (.receiveDelta now hash crdtType data sourceNode supported)) := by
  have moved := moved_receiveDelta s.node now hash crdtType data sourceNode
  have emits := (s.node.aggregator.apply_config (.ingest now hash crdtType data)).2.trans kept.emits
  have total := Moved.totalEmitted (.ingest now hash crdtType data) moved kept.totalEmitted
  have others : (s.node.aggregator.ingest now hash crdtType data).1.buckets.erase hash = s.buckets.erase hash :=
    erase_eq_iff.mpr fun other different => (Aggregator.ingest_other _ now different.symm crdtType data).1
  have taken := kept.ingest_cases now supported ⟨s.arrived.length,hash,data⟩
  refine kept.received_of_others rfl moved emits total others ?_ ?_
  · rcases taken with ⟨erased,_⟩ | ⟨bucket,agrees,inserted,_⟩
    · rw [erased]
      simp [Agrees]
    · rw [inserted]
      simpa using agrees
  · rcases taken with ⟨erased,emitted⟩ | ⟨bucket,_,inserted,emitted⟩
    · rw [erased]
      simpa using emitted
    · rw [inserted,emitted]
      simp

/-! #### Flushing -/

theorem mem_gone {before after : ExtTreeMap UInt32 Bucket} {hash : UInt32} :
    hash ∈ gone before after ↔ hash ∈ before ∧ hash ∉ after := by
  rw [gone,List.mem_filter,ExtTreeMap.mem_keys,Bool.not_eq_true',← Bool.not_eq_true,ExtTreeMap.contains_iff_mem]

/-- Flushing completes open batches; what the batches are stays the same. -/
theorem batches_swept_perm (s : Books) {node : RelayNode} (emissions : List Emission)
    (fewer : ∀ hash ∈ node.aggregator.buckets, hash ∈ s.buckets) : s.batches.Perm (s.swept node emissions).batches := by
  have unchanged : node.aggregator.buckets.keys.map (fun hash => (⟨hash,(s.swept node emissions).opened hash⟩ : Batch)) =
      node.aggregator.buckets.keys.map (fun hash => ⟨hash,s.opened hash⟩) := by
    refine List.map_congr_left fun hash listed => ?_
    have still : hash ∉ gone s.buckets node.aggregator.buckets := by
      intro flushed
      simp only [ExtTreeMap.mem_keys] at listed
      exact (mem_gone.mp flushed).2 listed
    simp only [swept,if_neg still]
  refine (((keys_perm_gone fewer).map _).append_left s.completed).trans (.of_eq ?_)
  rw [List.map_append,← List.append_assoc,← unchanged]
  rfl

/-- A node that has flushed some buckets, and put out one emission for each of
    them, keeps the invariant. -/
theorem swept_of_fewer (kept : Kept s) {node : RelayNode} {out : Aggregator × List Emission} (moved : Moved s.node node out)
    (emits : out.1.emits = true) (total : node.aggregator.totalEmitted = accounted node)
    (fewer : ∀ hash : UInt32, out.1.buckets[hash]? = none ∨ out.1.buckets[hash]? = s.buckets[hash]?)
    (emitted : List.Forall₂ EmissionOf ((gone s.buckets out.1.buckets).map fun hash => ⟨hash,s.opened hash⟩) out.2) :
    Kept (s.swept node out.2) := by
  obtain ⟨aggregator,forwards,news,-⟩ := moved
  rw [← aggregator] at emits fewer emitted
  have perm : s.batches.Perm (s.swept node out.2).batches := by
    apply batches_swept_perm
    intro hash present
    rcases fewer hash with absent | same
    · exact absurd present (getElem?_eq_none_iff_not_mem.mp absent)
    · rw [ExtTreeMap.mem_iff_isSome_getElem?,← same,← ExtTreeMap.mem_iff_isSome_getElem?]
      exact present
  refine ⟨forwards.trans kept.forwards,emits,?_,kept.numbered,(perm.symm.flatMap_right _).trans kept.once,?_,
    List.rel_append kept.emissions emitted,total,kept.received.trans news.symm⟩
  · intro hash
    show Agrees (if hash ∈ gone s.buckets node.aggregator.buckets then [] else s.opened hash) node.aggregator.buckets[hash]?
    by_cases flushed : hash ∈ gone s.buckets node.aggregator.buckets
    · rw [if_pos flushed,ExtTreeMap.getElem?_eq_none (mem_gone.mp flushed).2]
      rfl
    · have same : node.aggregator.buckets[hash]? = s.buckets[hash]? := by
        rcases fewer hash with absent | same
        · rw [absent]
          have never : hash ∉ s.buckets := fun present =>
            flushed (mem_gone.mpr ⟨present,getElem?_eq_none_iff_not_mem.mp absent⟩)
          exact (ExtTreeMap.getElem?_eq_none never).symm
        · exact same
      rw [if_neg flushed,same]
      exact kept.agrees hash
  · intro batch listed
    exact kept.ownPath batch (perm.mem_iff.mpr listed)

/-- The buckets that are gone after `flushIfReady` are those that were ready. -/
theorem gone_flushIfReady (agg : Aggregator) (now : Nat) :
    gone agg.buckets (agg.flushIfReady now).1.1.buckets =
      (agg.buckets.toList.filter (fun e => Aggregator.ready agg.config now e.2)).map Prod.fst := by
  rw [gone,← ExtTreeMap.map_fst_toList_eq_keys,List.filter_map]
  refine congrArg _ (List.filter_congr fun e listed => ?_)
  have found := ExtTreeMap.mem_toList_iff_getElem?_eq_some.mp listed
  have flushed : e.1 ∈ (agg.buckets.toList.filter (fun e => Aggregator.ready agg.config now e.2)).map Prod.fst ↔
      Aggregator.ready agg.config now e.2 = true := by
    constructor
    · intro named
      obtain ⟨e',ready,same⟩ := List.mem_map.mp named
      obtain ⟨listed',ready⟩ := List.mem_filter.mp ready
      have found' := ExtTreeMap.mem_toList_iff_getElem?_eq_some.mp listed'
      rw [same,found] at found'
      rw [Option.some.inj found']
      exact ready
    · intro ready
      exact List.mem_map_of_mem (List.mem_filter.mpr ⟨listed,ready⟩)
  obtain ⟨_,_,after,_⟩ := Aggregator.foldl_flushPath
    ((agg.buckets.toList.filter (fun e => Aggregator.ready agg.config now e.2)).map Prod.fst) (agg,[]) e.1
  rw [Bool.eq_iff_iff,← flushed]
  show (!(agg.flushIfReady now).1.1.buckets.contains e.1) = true ↔ _
  rw [Bool.not_eq_true',← Bool.not_eq_true,ExtTreeMap.contains_iff_mem,← getElem?_eq_none_iff_not_mem]
  show (List.foldl _ _ _ : Aggregator × List Emission).1.buckets[e.1]? = none ↔ _
  rw [after,found]
  simp

/-- Ticking flushes the buckets that are ready. -/
theorem tick (kept : Kept s) (now : Nat) : Kept (step s (.tick now)) := by
  have moved := (moved_onAggregator now s.node (s.node.aggregator.flushIfReady now).1).processQueue kept.forwards
  have emits := (s.node.aggregator.apply_config (.flushIfReady now)).2.trans kept.emits
  have total := Moved.totalEmitted (.flushIfReady now) moved kept.totalEmitted
  refine kept.swept_of_fewer moved emits total ?_ ?_
  · intro hash
    obtain ⟨_,_,after,_⟩ := Aggregator.foldl_flushPath ((s.node.aggregator.buckets.toList.filter
      (fun e => Aggregator.ready s.node.aggregator.config now e.2)).map Prod.fst) (s.node.aggregator,[]) hash
    split at after
    · exact .inl after
    · exact .inr after
  · rw [buckets,gone_flushIfReady]
    refine emissionOf_foldl_flushPath ?_ (s.node.aggregator,[]) kept.emits .nil ?_
    · rw [← gone_flushIfReady]
      exact ExtTreeMap.nodup_keys.filter _
    · intro hash listed
      obtain ⟨e,ready,rfl⟩ := List.mem_map.mp listed
      have found := ExtTreeMap.mem_toList_iff_getElem?_eq_some.mp (List.mem_filter.mp ready).1
      exact ⟨e.2,found,kept.flushes e.1 e.2 found⟩

/-- Flushing flushes every bucket. -/
theorem flush (kept : Kept s) (now : Nat) : Kept (step s (.flush now)) := by
  have moved := (moved_onAggregator now s.node s.node.aggregator.flush.1).processQueue kept.forwards
  have total := Moved.totalEmitted .flush moved kept.totalEmitted
  refine kept.swept_of_fewer moved kept.emits total ?_ ?_
  · intro hash
    exact .inl ExtTreeMap.getElem?_empty
  · have all : gone s.buckets s.node.aggregator.flush.1.1.buckets = s.buckets.keys := by
      refine List.filter_eq_self.mpr fun hash _ => ?_
      show (!(∅ : ExtTreeMap UInt32 Bucket).contains hash) = true
      simp
    rw [all]
    exact emissionOf_flush kept.emits kept.flushes

theorem setConfig (kept : Kept s) (config : RelayConfig) : Kept (step s (.setConfig config)) :=
  ⟨kept.forwards,kept.emits,kept.agrees,kept.numbered,kept.once,kept.ownPath,kept.emissions,kept.totalEmitted,kept.received⟩

theorem step (kept : Kept s) (call : Call) : Kept (Books.step s call) := by
  cases call with
  | receiveDelta now pathHash crdtType data sourceNode supported =>
    exact kept.receiveDelta now pathHash data sourceNode supported
  | tick now => exact kept.tick now
  | flush now => exact kept.flush now
  | setConfig config => exact kept.setConfig config

/-- The counters of the open buckets and of the completed batches add up to what
    has arrived. -/
theorem deltaCounts_eq (kept : Kept s) : s.deltaCounts = s.arrived.length := by
  have opened : s.buckets.toList.map (fun e => e.2.deltaCount.toNat) =
      s.buckets.keys.map (fun hash => (s.opened hash).length) := by
    rw [← ExtTreeMap.map_fst_toList_eq_keys,List.map_map]
    refine List.map_congr_left fun e listed => ?_
    have agrees := kept.agrees e.1
    rw [ExtTreeMap.mem_toList_iff_getElem?_eq_some.mp listed] at agrees
    exact agrees.1.count
  have all := kept.once.length_eq
  rw [List.length_flatMap,batches,List.map_append,List.sum_append,List.map_map] at all
  rw [deltaCounts,opened]
  exact all

theorem exact (kept : Kept s) : Exact s := by
  refine ⟨kept.numbered,kept.once,kept.ownPath,kept.emissions,kept.totalEmitted,?_⟩
  rw [kept.deltaCounts_eq,kept.received]

end Kept

/-- The accounts of a relay with a callback for what is forwarded are exact after
    every run of calls, and a flush leaves no bucket open and nothing queued. -/
theorem accounts_exact (nodeId : UInt16) (config : RelayConfig) (calls : List Call) :
    Exact (run step (begin nodeId config) calls) ∧
      ∀ now, ((run step (begin nodeId config) calls).node.flush now).1.1.aggregator.buckets = ∅ ∧
        ((run step (begin nodeId config) calls).node.flush now).1.1.forwardQueue = [] := by
  have kept : Kept (run step (begin nodeId config) calls) :=
    run_invariant (fun _ call kept => Kept.step kept call) (kept_begin nodeId config)
  refine ⟨kept.exact,fun now => ⟨?_,?_⟩⟩
  · have moved := (moved_onAggregator now _ (run step (begin nodeId config) calls).node.aggregator.flush.1).processQueue
      kept.forwards
    exact congrArg Aggregator.buckets moved.aggregator
  · exact forwardQueue_processQueue _

end Rom.RelayBooks
