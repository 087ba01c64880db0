import Rom.Registry
import Rom.Resolution

/-!
Relaying (`aggregator.h`, `aggregator.cpp`, `relay_node.h`, `relay_node.cpp`). An
aggregator merges the deltas of a path into a value of its own and, when the
batch is large or old enough or on demand, puts out a snapshot of that value and
forgets it; a relay node queues what its aggregator puts out and forwards the
queue on the next tick or flush. Calls of a callback are returned as a list. For
one path, each call on the aggregator leaves the open batch as it is, adds a
payload to it or puts it out, whatever happens on other paths (`path_cases`).
-/
namespace Rom
open Std

structure AggregatorConfig where
  maxBatchSize : UInt32 := 10
  /-- 0 for no limit. -/
  maxBatchAgeUs : UInt64 := 50000
  deriving DecidableEq, Repr

/-- The open batch of a path. -/
structure Bucket where
  crdtType : CrdtType
  crdt : Crdt
  deltaCount : UInt32 := 0
  firstIngest : Nat

/-- What is put out or forwarded for a path. -/
structure Emission where
  pathHash : UInt32
  crdtType : CrdtType
  data : Bytes
  deriving DecidableEq, Repr

structure Aggregator where
  config : AggregatorConfig := {}
  buckets : ExtTreeMap UInt32 Bucket := ∅
  /-- Whether a callback for what is put out is set. -/
  emits : Bool := false
  totalIngested : UInt64 := 0
  totalEmitted : UInt64 := 0

namespace Aggregator

def setConfig (agg : Aggregator) (config : AggregatorConfig) : Aggregator := { agg with config := config }

/-- A new value owned by the relay, whose node id is 0. -/
def createCrdt : CrdtType → Option Crdt
  | .lwwRegister => some (.lwwRegister (.new 0))
  | .gCounter => some (.gCounter (.new 0))
  | .pnCounter => some (.pnCounter (.new 0))
  | .orSet => some (.orSet (.new 0))
  | _ => none

/-- What flushing a batch puts out. -/
def flushBucket (emits : Bool) (pathHash : UInt32) (bucket : Bucket) : List Emission :=
  if bucket.deltaCount = 0 then []
  else if !bucket.crdt.snapshot.isEmpty && emits then [⟨pathHash,bucket.crdtType,bucket.crdt.snapshot⟩] else []

/-- Counts what is put out. -/
def emit (agg : Aggregator) (emissions : List Emission) : Aggregator × List Emission :=
  ({ agg with totalEmitted := agg.totalEmitted + UInt64.ofNat emissions.length },emissions)

/-- The batch of a path with a delta in it; none for an unsupported type. -/
def ingestBucket (now : Nat) (crdtType : CrdtType) (data : Bytes) : Option Bucket → Option Bucket
  | none =>
    match createCrdt crdtType with
    | none => none
    | some crdt => some ⟨crdtType,(crdt.merge data).1,1,now⟩
  | some bucket => some { bucket with crdt := (bucket.crdt.merge data).1, deltaCount := bucket.deltaCount + 1 }

def ingest (agg : Aggregator) (now : Nat) (pathHash : UInt32) (crdtType : CrdtType) (data : Bytes) :
    Aggregator × List Emission :=
  let agg := { agg with totalIngested := agg.totalIngested + 1 }
  match ingestBucket now crdtType data agg.buckets[pathHash]? with
  | none => (agg,[])
  | some bucket =>
    if bucket.deltaCount ≥ agg.config.maxBatchSize then
      { agg with buckets := agg.buckets.erase pathHash }.emit (flushBucket agg.emits pathHash bucket)
    else ({ agg with buckets := agg.buckets.insert pathHash bucket },[])

/-- What was put out, and the number of paths flushed. -/
def flush (agg : Aggregator) : (Aggregator × List Emission) × Nat :=
  ({ agg with buckets := ∅ }.emit (agg.buckets.toList.flatMap (fun e : UInt32 × Bucket => flushBucket agg.emits e.1 e.2)),
    (agg.buckets.toList.filter (fun e : UInt32 × Bucket => e.2.deltaCount > 0)).length)

/-- The batch has reached its size or its age. -/
def ready (config : AggregatorConfig) (now : Nat) (bucket : Bucket) : Bool :=
  if bucket.deltaCount ≥ config.maxBatchSize then true
  else if config.maxBatchAgeUs > 0 then now - bucket.firstIngest ≥ config.maxBatchAgeUs.toNat
  else false

/-- Flushes the batch of a path, if there is one. -/
def flushPath (st : Aggregator × List Emission) (hash : UInt32) : Aggregator × List Emission :=
  match st.1.buckets[hash]? with
  | none => st
  | some bucket =>
    let out := { st.1 with buckets := st.1.buckets.erase hash }.emit (flushBucket st.1.emits hash bucket)
    (out.1,st.2 ++ out.2)

/-- What was put out, and the number of paths flushed. -/
def flushIfReady (agg : Aggregator) (now : Nat) : (Aggregator × List Emission) × Nat :=
  let toFlush := (agg.buckets.toList.filter (fun e => ready agg.config now e.2)).map Prod.fst
  (toFlush.foldl flushPath (agg,[]),toFlush.length)

/-! ### One path -/

/-- A call on the aggregator, with the time at which it is made. -/
inductive Call where
  | ingest (now : Nat) (pathHash : UInt32) (crdtType : CrdtType) (data : Bytes)
  | flush
  | flushIfReady (now : Nat)
  deriving DecidableEq, Repr

def apply (agg : Aggregator) : Call → Aggregator × List Emission
  | .ingest now pathHash crdtType data => agg.ingest now pathHash crdtType data
  | .flush => agg.flush.1
  | .flushIfReady now => (agg.flushIfReady now).1

/-- The payload that a call brings for a path. -/
def payloads (hash : UInt32) : Call → List Bytes
  | .ingest _ pathHash _ data => if pathHash = hash then [data] else []
  | .flush => []
  | .flushIfReady _ => []

theorem payloads_ingest (hash : UInt32) (now : Nat) (crdtType : CrdtType) (data : Bytes) :
    payloads hash (.ingest now hash crdtType data) = [data] := if_pos rfl

/-- What of some emissions is for a path. -/
def emittedFor (hash : UInt32) (emissions : List Emission) : List Bytes :=
  (emissions.filter (fun em => em.pathHash == hash)).map Emission.data

/-- A snapshot is never empty. -/
theorem isEmpty_snapshot (c : Crdt) : c.snapshot.isEmpty = false := by
  cases c with
  | lwwRegister r => rfl
  | gCounter c => rfl
  | pnCounter c => rfl
  | orSet s => rfl

/-- What a batch puts out. -/
def putOut (emits : Bool) (bucket : Bucket) : List Bytes := emittedFor 0 (flushBucket emits 0 bucket)

theorem emittedFor_append (hash : UInt32) (l m : List Emission) :
    emittedFor hash (l ++ m) = emittedFor hash l ++ emittedFor hash m := by
  rw [emittedFor,List.filter_append,List.map_append]
  rfl

theorem pathHash_flushBucket {emits : Bool} {hash : UInt32} {bucket : Bucket} {em : Emission}
    (listed : em ∈ flushBucket emits hash bucket) : em.pathHash = hash := by
  rw [flushBucket] at listed
  split at listed
  · cases listed
  · split at listed
    · rw [List.mem_singleton.mp listed]
    · cases listed

theorem map_data_flushBucket (emits : Bool) (hash : UInt32) (bucket : Bucket) :
    (flushBucket emits hash bucket).map Emission.data = putOut emits bucket := by
  unfold putOut emittedFor flushBucket
  split
  · rfl
  · split
    · simp
    · rfl

theorem emittedFor_flushBucket (emits : Bool) (hash hash' : UInt32) (bucket : Bucket) :
    emittedFor hash (flushBucket emits hash' bucket) = if hash' = hash then putOut emits bucket else [] := by
  rw [emittedFor]
  by_cases same : hash' = hash
  · rw [if_pos same,← map_data_flushBucket emits hash' bucket]
    refine congrArg _ (List.filter_eq_self.mpr fun em listed => ?_)
    exact beq_iff_eq.mpr ((pathHash_flushBucket listed).trans same)
  · rw [if_neg same,List.map_eq_nil_iff,List.filter_eq_nil_iff]
    intro em listed here
    exact same ((pathHash_flushBucket listed).symm.trans (beq_iff_eq.mp here))

theorem emittedFor_flush (agg : Aggregator) (hash : UInt32) :
    emittedFor hash agg.flush.1.2 = (agg.buckets[hash]?.map (putOut agg.emits)).getD [] := by
  have split := filter_flatMap_key (fun e : UInt32 × Bucket => flushBucket agg.emits e.1 e.2) Emission.pathHash
    (fun _ _ listed => pathHash_flushBucket listed) agg.buckets.toList hash
  show ((agg.buckets.toList.flatMap (fun e => flushBucket agg.emits e.1 e.2)).filter _).map Emission.data = _
  rw [split,toList_filter_key]
  cases agg.buckets[hash]? with
  | none => rfl
  | some b =>
    show (flushBucket agg.emits hash b ++ []).map Emission.data = putOut agg.emits b
    rw [List.append_nil,map_data_flushBucket]

/-- What the open batch of a path puts out, if there is one. -/
def pendingFor (agg : Aggregator) (hash : UInt32) : List Bytes := (agg.buckets[hash]?.map (putOut agg.emits)).getD []

theorem flushPath_spec (st : Aggregator × List Emission) (first hash : UInt32) :
    (flushPath st first).1.config = st.1.config ∧ (flushPath st first).1.emits = st.1.emits ∧
      (flushPath st first).1.buckets[hash]? = (if first = hash then none else st.1.buckets[hash]?) ∧
      emittedFor hash (flushPath st first).2 =
        emittedFor hash st.2 ++ if first = hash then pendingFor st.1 hash else [] := by
  rw [flushPath]
  cases found : st.1.buckets[first]? with
  | none =>
    refine ⟨rfl,rfl,?_,?_⟩
    · by_cases same : first = hash
      · rw [if_pos same,← same,found]
      · rw [if_neg same]
    · by_cases same : first = hash
      · rw [if_pos same,pendingFor,← same,found]
        exact (List.append_nil _).symm
      · rw [if_neg same,List.append_nil]
  | some bucket =>
    refine ⟨rfl,rfl,?_,?_⟩
    · show (st.1.buckets.erase first)[hash]? = _
      rw [ExtTreeMap.getElem?_erase]
      by_cases same : first = hash
      · simp [same]
      · simp [same]
    · show emittedFor hash (st.2 ++ flushBucket st.1.emits first bucket) = _
      rw [emittedFor_append,emittedFor_flushBucket]
      by_cases same : first = hash
      · rw [if_pos same,if_pos same,pendingFor,← same,found]
        rfl
      · rw [if_neg same,if_neg same]

/-- Flushing some paths flushes those that have a batch. -/
theorem foldl_flushPath (hashes : List UInt32) (st : Aggregator × List Emission) (hash : UInt32) :
    (hashes.foldl flushPath st).1.config = st.1.config ∧ (hashes.foldl flushPath st).1.emits = st.1.emits ∧
      (hashes.foldl flushPath st).1.buckets[hash]? = (if hash ∈ hashes then none else st.1.buckets[hash]?) ∧
      emittedFor hash (hashes.foldl flushPath st).2 =
        emittedFor hash st.2 ++ if hash ∈ hashes then pendingFor st.1 hash else [] := by
  induction hashes generalizing st with
  | nil => exact ⟨rfl,rfl,rfl,(List.append_nil _).symm⟩
  | cons first hashes ih =>
    obtain ⟨config,emits,bucket,emitted⟩ := flushPath_spec st first hash
    obtain ⟨config',emits',bucket',emitted'⟩ := ih (flushPath st first)
    rw [List.foldl_cons]
    refine ⟨config'.trans config,emits'.trans emits,?_,?_⟩
    · rw [bucket',bucket]
      by_cases same : first = hash
      · simp [same]
      · simp [same,Ne.symm same]
    · rw [emitted',emitted,pendingFor,pendingFor,bucket,emits,List.append_assoc]
      by_cases same : first = hash
      · simp [same]
      · simp [same,Ne.symm same]

/-- A call leaves the configuration and the callback as they are. -/
theorem apply_config (agg : Aggregator) (call : Call) :
    (agg.apply call).1.config = agg.config ∧ (agg.apply call).1.emits = agg.emits := by
  cases call with
  | ingest now pathHash crdtType data =>
    rw [apply,ingest]
    dsimp only
    split
    · exact ⟨rfl,rfl⟩
    · split
      · exact ⟨rfl,rfl⟩
      · exact ⟨rfl,rfl⟩
  | flush => exact ⟨rfl,rfl⟩
  | flushIfReady now =>
    obtain ⟨config,emits,_⟩ := foldl_flushPath
      ((agg.buckets.toList.filter (fun e => ready agg.config now e.2)).map Prod.fst) (agg,[]) 0
    exact ⟨config,emits⟩

/-- What a delta does: nothing, if its type is not supported; or it fills the batch,
    which is put out; or it goes to the open batch. -/
theorem ingest_cases (agg : Aggregator) (now : Nat) (pathHash : UInt32) (crdtType : CrdtType) (data : Bytes) :
    (ingestBucket now crdtType data agg.buckets[pathHash]? = none ∧
      (agg.ingest now pathHash crdtType data).1.buckets = agg.buckets ∧ (agg.ingest now pathHash crdtType data).2 = []) ∨
    ∃ bucket, ingestBucket now crdtType data agg.buckets[pathHash]? = some bucket ∧
      ((agg.ingest now pathHash crdtType data).1.buckets = agg.buckets.erase pathHash ∧
          (agg.ingest now pathHash crdtType data).2 = flushBucket agg.emits pathHash bucket ∨
        bucket.deltaCount < agg.config.maxBatchSize ∧
          (agg.ingest now pathHash crdtType data).1.buckets = agg.buckets.insert pathHash bucket ∧
          (agg.ingest now pathHash crdtType data).2 = []) := by
  rw [ingest]
  dsimp only
  cases filled : ingestBucket now crdtType data agg.buckets[pathHash]? with
  | none => exact .inl ⟨rfl,rfl,rfl⟩
  | some bucket =>
    refine .inr ⟨bucket,rfl,?_⟩
    dsimp only
    by_cases full : bucket.deltaCount ≥ agg.config.maxBatchSize
    · rw [if_pos full]
      exact .inl ⟨rfl,rfl⟩
    · rw [if_neg full]
      exact .inr ⟨UInt32.not_le.mp full,rfl,rfl⟩

/-- A delta does nothing for other paths. -/
theorem ingest_other (agg : Aggregator) (now : Nat) {pathHash hash : UInt32} (other : pathHash ≠ hash)
    (crdtType : CrdtType) (data : Bytes) :
    (agg.ingest now pathHash crdtType data).1.buckets[hash]? = agg.buckets[hash]? ∧
      emittedFor hash (agg.ingest now pathHash crdtType data).2 = [] := by
  rcases ingest_cases agg now pathHash crdtType data with
    ⟨_,buckets,emitted⟩ | ⟨bucket,_,⟨buckets,emitted⟩ | ⟨_,buckets,emitted⟩⟩
  · rw [buckets,emitted]
    exact ⟨rfl,rfl⟩
  · rw [buckets,emitted,ExtTreeMap.getElem?_erase,emittedFor_flushBucket,if_neg other]
    simp [other]
  · rw [buckets,emitted,ExtTreeMap.getElem?_insert]
    simp [other,emittedFor]

/-- A delta goes into the open batch of its path, or fills it and puts it out. -/
theorem ingest_own (agg : Aggregator) (now : Nat) (hash : UInt32) (crdtType : CrdtType) (data : Bytes) :
    ((agg.ingest now hash crdtType data).1.buckets[hash]? = ingestBucket now crdtType data agg.buckets[hash]? ∧
      (∀ bucket, (agg.ingest now hash crdtType data).1.buckets[hash]? = some bucket →
        bucket.deltaCount < agg.config.maxBatchSize) ∧
      emittedFor hash (agg.ingest now hash crdtType data).2 = []) ∨
    ∃ bucket, ingestBucket now crdtType data agg.buckets[hash]? = some bucket ∧
      (agg.ingest now hash crdtType data).1.buckets[hash]? = none ∧
      emittedFor hash (agg.ingest now hash crdtType data).2 = putOut agg.emits bucket := by
  rcases ingest_cases agg now hash crdtType data with
    ⟨unsupported,buckets,emitted⟩ | ⟨bucket,filled,⟨buckets,emitted⟩ | ⟨room,buckets,emitted⟩⟩
  · have none : agg.buckets[hash]? = none := by
      cases found : agg.buckets[hash]? with
      | none => rfl
      | some bucket =>
        rw [found] at unsupported
        cases unsupported
    rw [buckets,emitted,unsupported,none]
    refine .inl ⟨rfl,?_,rfl⟩
    intro bucket found
    cases found
  · rw [buckets,emitted,emittedFor_flushBucket,if_pos rfl]
    exact .inr ⟨bucket,filled,ExtTreeMap.getElem?_erase_self,rfl⟩
  · rw [buckets,emitted,filled,ExtTreeMap.getElem?_insert_self]
    refine .inl ⟨rfl,?_,rfl⟩
    intro bucket' found
    cases found
    exact room

/-- What a call does for one path: nothing; it adds a payload to the open batch;
    it adds a payload and puts the batch out; or it puts the batch out. -/
theorem path_cases (agg : Aggregator) (call : Call) (hash : UInt32) :
    (payloads hash call = [] ∧ (agg.apply call).1.buckets[hash]? = agg.buckets[hash]? ∧
      emittedFor hash (agg.apply call).2 = []) ∨
    (∃ now crdtType data, call = .ingest now hash crdtType data ∧
      (agg.apply call).1.buckets[hash]? = ingestBucket now crdtType data agg.buckets[hash]? ∧
      (∀ bucket, (agg.apply call).1.buckets[hash]? = some bucket → bucket.deltaCount < agg.config.maxBatchSize) ∧
      emittedFor hash (agg.apply call).2 = []) ∨
    (∃ now crdtType data bucket, call = .ingest now hash crdtType data ∧
      ingestBucket now crdtType data agg.buckets[hash]? = some bucket ∧
      (agg.apply call).1.buckets[hash]? = none ∧ emittedFor hash (agg.apply call).2 = putOut agg.emits bucket) ∨
    (payloads hash call = [] ∧ (agg.apply call).1.buckets[hash]? = none ∧
      emittedFor hash (agg.apply call).2 = pendingFor agg hash) := by
  cases call with
  | ingest now pathHash crdtType data =>
    by_cases same : pathHash = hash
    · subst same
      rcases ingest_own agg now pathHash crdtType data with kept | ⟨bucket,out⟩
      · exact .inr (.inl ⟨now,crdtType,data,rfl,kept⟩)
      · exact .inr (.inr (.inl ⟨now,crdtType,data,bucket,rfl,out⟩))
    · exact .inl ⟨if_neg same,ingest_other agg now same crdtType data⟩
  | flush =>
    refine .inr (.inr (.inr ⟨rfl,?_,emittedFor_flush agg hash⟩))
    exact ExtTreeMap.getElem?_empty
  | flushIfReady now =>
    obtain ⟨_,_,bucket,emitted⟩ := foldl_flushPath
      ((agg.buckets.toList.filter (fun e => ready agg.config now e.2)).map Prod.fst) (agg,[]) hash
    by_cases flushed : hash ∈ (agg.buckets.toList.filter (fun e => ready agg.config now e.2)).map Prod.fst
    · rw [if_pos flushed] at bucket emitted
      exact .inr (.inr (.inr ⟨rfl,bucket,emitted⟩))
    · rw [if_neg flushed] at bucket emitted
      exact .inl ⟨rfl,bucket,emitted⟩

end Aggregator

/-! ### The relay node -/

structure RelayConfig where
  aggregator : AggregatorConfig := {}
  forwardTier : ResolutionTier := .full
  resolution : ResolutionConfig := {}
  deriving DecidableEq, Repr

structure RelayNode where
  nodeId : UInt16
  config : RelayConfig
  aggregator : Aggregator
  filter : DeltaFilter
  /-- Whether a callback for what is forwarded is set. -/
  forwards : Bool := false
  forwardQueue : List Emission := []
  lastSource : ExtTreeMap UInt32 UInt16 := ∅
  deltasReceived : UInt64 := 0
  deltasForwarded : UInt64 := 0
  deltasFiltered : UInt64 := 0

namespace RelayNode

/-- A relay node; its aggregator hands it what is put out. -/
def new (nodeId : UInt16) (config : RelayConfig) : RelayNode :=
  { nodeId := nodeId
    config := config
    aggregator := { config := config.aggregator, emits := true }
    filter := { tier := config.forwardTier, config := config.resolution } }

def setForwardCallback (node : RelayNode) : RelayNode := { node with forwards := true }

def setConfig (node : RelayNode) (config : RelayConfig) : RelayNode :=
  { node with
    config := config
    aggregator := node.aggregator.setConfig config.aggregator
    filter := { node.filter with tier := config.forwardTier, config := config.resolution } }

def onAggregatorEmit (now : Nat) (node : RelayNode) (emission : Emission) : RelayNode :=
  if node.config.forwardTier ≠ .full then
    let (filter,forward) := node.filter.shouldForward now emission.pathHash emission.data
    if forward then { node with filter := filter, forwardQueue := node.forwardQueue ++ [emission] }
    else { node with filter := filter, deltasFiltered := node.deltasFiltered + 1 }
  else { node with forwardQueue := node.forwardQueue ++ [emission] }

/-- The node after its aggregator has changed and put something out. -/
def onAggregator (now : Nat) (node : RelayNode) (out : Aggregator × List Emission) : RelayNode :=
  out.2.foldl (onAggregatorEmit now) { node with aggregator := out.1 }

def receiveDelta (node : RelayNode) (now : Nat) (pathHash : UInt32) (crdtType : CrdtType) (data : Bytes)
    (sourceNode : UInt16) : RelayNode :=
  let node := { node with
    deltasReceived := node.deltasReceived + 1
    lastSource := node.lastSource.insert pathHash sourceNode }
  node.onAggregator now (node.aggregator.ingest now pathHash crdtType data)

/-- Forwards the queue. -/
def processQueue (node : RelayNode) : RelayNode × List Emission :=
  if node.forwards then
    ({ node with
        forwardQueue := []
        deltasForwarded := node.deltasForwarded + UInt64.ofNat node.forwardQueue.length },node.forwardQueue)
  else ({ node with forwardQueue := [] },[])

def tick (node : RelayNode) (now : Nat) : RelayNode × List Emission :=
  (node.onAggregator now (node.aggregator.flushIfReady now).1).processQueue

/-- What was forwarded, and the number of paths flushed. -/
def flush (node : RelayNode) (now : Nat) : (RelayNode × List Emission) × Nat :=
  ((node.onAggregator now node.aggregator.flush.1).processQueue,node.aggregator.flush.2)

/-- At full resolution everything that is put out is queued. -/
theorem onAggregator_full (node : RelayNode) (full : node.config.forwardTier = .full) (now : Nat)
    (out : Aggregator × List Emission) :
    node.onAggregator now out = { node with aggregator := out.1, forwardQueue := node.forwardQueue ++ out.2 } := by
  have queued : ∀ (l : List Emission) (node : RelayNode), node.config.forwardTier = .full →
      l.foldl (onAggregatorEmit now) node = { node with forwardQueue := node.forwardQueue ++ l } := by
    intro l
    induction l with
    | nil =>
      intro node _
      rw [List.append_nil]
      rfl
    | cons emission l ih =>
      intro node full
      rw [List.foldl_cons,onAggregatorEmit,if_neg (not_not_intro full),ih]
      · simp only [List.append_assoc,List.singleton_append]
      · exact full
  exact queued out.2 { node with aggregator := out.1 } full

end RelayNode
end Rom
