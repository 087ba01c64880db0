import Rom.RelayRuns
import Rom.CounterJoin

/-!
What relays pass on, as levels. What a register or a counter knows is its level, the
stamp or the counts, and a merge joins levels (`level_merge`); a snapshot carries the
level of its value (`brings_snapshot`). What an aggregator or a relay node holds for a
path and is handed, it goes on to hold or puts out, and nothing else (`good_apply`,
`good_relayCall`).
-/
namespace Rom.RelayMesh
open Std
open Rom.RelayRuns (view View Aggregated nodesIn Within within_merge RelayCall putOut_of_counted count_ne_zero
  processQueue_eq)
open Rom.Aggregator (createCrdt ingestBucket payloads emittedFor pendingFor putOut flushBucket flushPath path_cases
  ingest_cases apply_config)
open Rom.Crdt (mergeAll mergeAll_append typeOf_mergeAll)
open Rom.GCounter (Sound nodesOf sound_new sound_few)
open Rom.PnCounter (Side half)
open Rom.LwwRegister (Stamp wireStamp headerSize)
open Rom.Skips (counts entriesIn)
open Rom.CounterJoin (carriedCounts counts_merged carriedCounts_snapshot entriesOn entriesIn_snapshot)

/-! ### Levels -/

/-- The counts of a counter and the stamp of a register. -/
abbrev Level := (Side → UInt16 → ℕ) × Stamp

def nothing : Level := (fun _ _ => 0,toLex (0,0))

theorem nothing_le (b : Level) : nothing ≤ b := by
  refine ⟨fun _ _ => Nat.zero_le _,?_⟩
  obtain ⟨_,stamp⟩ := b
  exact Prod.Lex.toLex_le_toLex.mpr (by
    show (0 : ℕ) < _ ∨ (0 : ℕ) = _ ∧ (0 : ℕ) ≤ _
    omega)

def stampIn : Crdt → Stamp
  | .lwwRegister r => r.stamp
  | _ => toLex (0,0)

def level (c : Crdt) : Level := (counts c,stampIn c)

/-- What a payload carries, as a merge of the type reads it. -/
def brings (type : CrdtType) (data : Bytes) : Level :=
  (carriedCounts type data,if type = .lwwRegister then wireStamp data else toLex (0,0))

theorem level_merge (c : Crdt) (data : Bytes) : level (c.merge data).1 = level c ⊔ brings c.typeOf data := by
  refine Prod.ext (counts_merged c data) ?_
  cases c with
  | lwwRegister r => exact LwwRegister.stamp_merge r data
  | gCounter c => exact (max_self _).symm
  | pnCounter c => exact (max_self _).symm
  | orSet s => exact (max_self _).symm

theorem level_mergeAll_le_iff (c : Crdt) (ds : List Bytes) (b : Level) :
    level (mergeAll c ds) ≤ b ↔ level c ≤ b ∧ ∀ d ∈ ds, brings c.typeOf d ≤ b := by
  induction ds generalizing c with
  | nil => simp [mergeAll]
  | cons d ds ih =>
    rw [show mergeAll c (d :: ds) = mergeAll (c.merge d).1 ds from rfl,ih,level_merge,Crdt.typeOf_merge,sup_le_iff,
      List.forall_mem_cons,and_assoc]

/-- The register's value is the one of its stamp. -/
def Reads (val : Stamp → Bytes) : Crdt → Prop
  | .lwwRegister r => r.value = val r.stamp
  | _ => True

/-- The payload's value is the one of its stamp, where a register may adopt it. -/
def Tells (val : Stamp → Bytes) (type : CrdtType) (data : Bytes) : Prop :=
  type = .lwwRegister → toLex (0,0) < wireStamp data → data.drop headerSize = val (wireStamp data)

/-- The value is of the type, of some nodes, and read by its stamp. -/
structure Sane (S : Finset UInt16) (val : Stamp → Bytes) (type : CrdtType) (c : Crdt) : Prop where
  type : c.typeOf = type
  within : Within S c
  reads : Reads val c

/-- The payload is of some nodes, and its value is told by its stamp. -/
structure Proper (S : Finset UInt16) (val : Stamp → Bytes) (type : CrdtType) (data : Bytes) : Prop where
  nodes : ∀ n ∈ nodesIn type data, n ∈ S
  tells : Tells val type data

section
variable {S : Finset UInt16} {val : Stamp → Bytes} {type : CrdtType} {c : Crdt} {data : Bytes}

theorem reads_merge (reads : Reads val c) (tells : Tells val c.typeOf data) : Reads val (c.merge data).1 := by
  cases c with
  | lwwRegister r =>
    show (r.merge data).1.value = val (r.merge data).1.stamp
    rcases LwwRegister.merge_cases r data with ⟨same,_⟩ | ⟨long,newer,copied⟩
    · rw [same]
      exact reads
    · have stamp := LwwRegister.stamp_merge r data
      rw [max_eq_right newer.le] at stamp
      have least : toLex (0,0) ≤ r.stamp := (nothing_le (fun _ _ => 0,r.stamp)).2
      rw [stamp,copied]
      exact tells rfl (least.trans_lt newer)
  | gCounter c => trivial
  | pnCounter c => trivial
  | orSet s => trivial

theorem Sane.merge (sane : Sane S val type c) (proper : Proper S val type data) : Sane S val type (c.merge data).1 where
  type := (Crdt.typeOf_merge c data).trans sane.type
  within := within_merge sane.within (sane.type ▸ proper.nodes)
  reads := reads_merge sane.reads (sane.type ▸ proper.tells)

theorem few_entries (few : S.card ≤ 255) (within : Within S c) (side : Side) : (entriesOn c side).length ≤ 255 := by
  cases c with
  | lwwRegister r => exact Nat.zero_le _
  | gCounter c => exact Nat.le_of_lt_succ (sound_few within few)
  | pnCounter c => exact Nat.le_of_lt_succ (sound_few (within side) few)
  | orSet s => exact Nat.zero_le _

theorem brings_snapshot (few : S.card ≤ 255) (aggregated : Aggregated c.typeOf) (within : Within S c) :
    brings c.typeOf c.snapshot = level c := by
  have orderly : Orderly c := by
    cases c with
    | lwwRegister r => trivial
    | gCounter c => exact ⟨S,within⟩
    | pnCounter c => exact fun side => ⟨S,within side⟩
    | orSet s => rcases aggregated with type | type | type <;> cases type
  refine Prod.ext (carriedCounts_snapshot orderly (few_entries few within)) ?_
  cases c with
  | lwwRegister r => exact LwwRegister.wireStamp_encodeState r
  | gCounter c => rfl
  | pnCounter c => rfl
  | orSet s => rfl

theorem nodesIn_snapshot (few : S.card ≤ 255) (within : Within S c) : ∀ n ∈ nodesIn c.typeOf c.snapshot, n ∈ S := by
  have carried := fun side => entriesIn_snapshot (few_entries few within) side
  intro n member
  cases c with
  | lwwRegister r => cases member
  | gCounter c =>
    have listed : n ∈ nodesOf (GCounter.carriedEntries c.snapshot) := member
    rw [show GCounter.carriedEntries c.snapshot = c.entries from carried .up] at listed
    exact within.within n listed
  | pnCounter c =>
    rcases List.mem_append.mp member with up | down
    · rw [show PnCounter.carriedOn .up _ = c.p.entries from carried .up] at up
      exact (within .up).within n up
    · rw [show PnCounter.carriedOn .down _ = c.n.entries from carried .down] at down
      exact (within .down).within n down
  | orSet s => cases member

theorem Sane.proper_snapshot (few : S.card ≤ 255) (sane : Sane S val type c) : Proper S val type c.snapshot := by
  obtain ⟨rfl,within,reads⟩ := sane
  refine ⟨nodesIn_snapshot few within,?_⟩
  intro register _
  obtain ⟨r,rfl⟩ := Crdt.exists_register register
  rw [show Crdt.snapshot (.lwwRegister r) = r.encodeState from rfl,LwwRegister.wireStamp_encodeState,
    LwwRegister.drop_encodeState]
  exact reads

/-- What a relay starts a batch with is below everything. -/
theorem created (aggregated : Aggregated type) (zero : 0 ∈ S) (first : val (toLex (0,0)) = []) :
    ∃ c, createCrdt type = some c ∧ Sane S val type c ∧ level c = nothing := by
  rcases aggregated with rfl | rfl | rfl
  · exact ⟨_,rfl,⟨rfl,trivial,first.symm⟩,rfl⟩
  · refine ⟨_,rfl,⟨rfl,sound_new zero,trivial⟩,Prod.ext ?_ rfl⟩
    funext _ n
    exact GCounter.countOf_new 0 n
  · refine ⟨_,rfl,⟨rfl,fun side => ?_,trivial⟩,Prod.ext ?_ rfl⟩
    · cases side with
      | up => exact sound_new zero
      | down => exact sound_new zero
    · funext side n
      cases side with
      | up => exact GCounter.countOf_new 0 n
      | down => exact GCounter.countOf_new 0 n

/-- Values of one level are seen alike. -/
theorem view_eq_of_level {c' : Crdt} (aggregated : Aggregated type) (sane : c.typeOf = type ∧ Reads val c)
    (sane' : c'.typeOf = type ∧ Reads val c') (same : level c = level c') : view c = view c' := by
  obtain ⟨counted,stamped⟩ := Prod.mk.inj same
  rcases aggregated with rfl | rfl | rfl
  · obtain ⟨r,rfl⟩ := Crdt.exists_register sane.1
    obtain ⟨r',rfl⟩ := Crdt.exists_register sane'.1
    obtain ⟨ts,node⟩ := LwwRegister.stampOf_injective stamped
    have value : r.value = r'.value := by
      rw [show r.value = val r.stamp from sane.2,show r'.value = val r'.stamp from sane'.2]
      exact congrArg val stamped
    show View.register _ _ _ = View.register _ _ _
    rw [ts,node,value]
  · obtain ⟨r,rfl⟩ := Crdt.exists_gCounter sane.1
    obtain ⟨r',rfl⟩ := Crdt.exists_gCounter sane'.1
    exact congrArg View.counts (congrFun counted .up)
  · obtain ⟨r,rfl⟩ := Crdt.exists_pnCounter sane.1
    obtain ⟨r',rfl⟩ := Crdt.exists_pnCounter sane'.1
    exact congrArg View.sides counted

end

/-! ### What an aggregator puts out -/

theorem mem_flushBucket {emits : Bool} {hash : UInt32} {bucket : Bucket} {em : Emission}
    (listed : em ∈ flushBucket emits hash bucket) : em = ⟨hash,bucket.crdtType,bucket.crdt.snapshot⟩ := by
  rw [flushBucket] at listed
  split at listed
  · cases listed
  · split at listed
    · exact List.mem_singleton.mp listed
    · cases listed

theorem mem_foldl_flushPath (hashes : List UInt32) (st : Aggregator × List Emission) {em : Emission}
    (listed : em ∈ (hashes.foldl flushPath st).2) :
    em ∈ st.2 ∨ ∃ bucket, st.1.buckets[em.pathHash]? = some bucket ∧
      em = ⟨em.pathHash,bucket.crdtType,bucket.crdt.snapshot⟩ := by
  induction hashes generalizing st with
  | nil => exact .inl listed
  | cons first hashes ih =>
    rcases ih (flushPath st first) listed with before | ⟨bucket,found,same⟩
    · rw [flushPath] at before
      cases held : st.1.buckets[first]? with
      | none =>
        rw [held] at before
        exact .inl before
      | some bucket =>
        rw [held] at before
        rcases List.mem_append.mp before with earlier | now
        · exact .inl earlier
        · obtain rfl := mem_flushBucket now
          exact .inr ⟨bucket,held,rfl⟩
    · refine .inr ⟨bucket,?_,same⟩
      rw [(Aggregator.flushPath_spec st first em.pathHash).2.2.1] at found
      split at found
      · cases found
      · exact found

/-- What is put out for a path is the snapshot of a batch of the path, as it was or
    with the payload of the call. -/
theorem emission_origin {agg : Aggregator} {call : Aggregator.Call} {em : Emission} (listed : em ∈ (agg.apply call).2) :
    ∃ bucket, em = ⟨em.pathHash,bucket.crdtType,bucket.crdt.snapshot⟩ ∧
      (agg.buckets[em.pathHash]? = some bucket ∨
        ∃ now crdtType data, call = .ingest now em.pathHash crdtType data ∧
          ingestBucket now crdtType data agg.buckets[em.pathHash]? = some bucket) := by
  cases call with
  | ingest now pathHash crdtType data =>
    change em ∈ (agg.ingest now pathHash crdtType data).2 at listed
    rcases ingest_cases agg now pathHash crdtType data with
      ⟨_,_,emitted⟩ | ⟨bucket,filled,⟨_,emitted⟩ | ⟨_,_,emitted⟩⟩
    · rw [emitted] at listed
      cases listed
    · rw [emitted] at listed
      obtain rfl := mem_flushBucket listed
      exact ⟨bucket,rfl,.inr ⟨now,crdtType,data,rfl,filled⟩⟩
    · rw [emitted] at listed
      cases listed
  | flush =>
    obtain ⟨e,member,put⟩ := List.mem_flatMap.mp listed
    obtain rfl := mem_flushBucket put
    exact ⟨e.2,rfl,.inl (ExtTreeMap.mem_toList_iff_getElem?_eq_some.mp member)⟩
  | flushIfReady now =>
    rcases mem_foldl_flushPath _ _ listed with never | ⟨bucket,found,same⟩
    · cases never
    · exact ⟨bucket,same,.inl found⟩

/-! ### One relay -/

/-- An emission of another path brings nothing. -/
def weight (type : CrdtType) (hash : UInt32) (em : Emission) : Level :=
  if em.pathHash = hash then brings type em.data else nothing

/-- What the open batch of a path holds. -/
def batchLevel : Option Bucket → Level
  | none => nothing
  | some bucket => level bucket.crdt

/-- What a relay holds for a path, in its batch and in its queue. -/
def held (type : CrdtType) (hash : UInt32) (node : RelayNode) : Level :=
  (node.forwardQueue.map (weight type hash)).foldr (· ⊔ ·) (batchLevel node.aggregator.buckets[hash]?)

section
variable {S : Finset UInt16} {val : Stamp → Bytes} {type : CrdtType} {hash : UInt32}

theorem held_le_iff (node : RelayNode) (b : Level) :
    held type hash node ≤ b ↔
      batchLevel node.aggregator.buckets[hash]? ≤ b ∧ ∀ em ∈ node.forwardQueue, weight type hash em ≤ b := by
  rw [held]
  induction node.forwardQueue with
  | nil => simp
  | cons em queue ih =>
    rw [List.map_cons,List.foldr_cons,sup_le_iff,ih,List.forall_mem_cons]
    tauto

theorem weights_le_iff (emissions : List Emission) (b : Level) :
    (∀ em ∈ emissions, weight type hash em ≤ b) ↔ ∀ d ∈ emittedFor hash emissions, brings type d ≤ b := by
  constructor
  · intro all d listed
    obtain ⟨em,chosen,rfl⟩ := List.mem_map.mp listed
    obtain ⟨member,here⟩ := List.mem_filter.mp chosen
    have bound := all em member
    rwa [weight,if_pos (beq_iff_eq.mp here)] at bound
  · intro all em member
    rw [weight]
    split
    · next here => exact all _ (List.mem_map.mpr ⟨em,List.mem_filter.mpr ⟨member,beq_iff_eq.mpr here⟩,rfl⟩)
    · exact nothing_le b

/-- A batch of the path. -/
structure GoodBatch (S : Finset UInt16) (val : Stamp → Bytes) (type : CrdtType) (bucket : Bucket) : Prop where
  sane : Sane S val type bucket.crdt
  crdtType : bucket.crdtType = type
  counted : bucket.deltaCount ≠ 0

/-- An emission, if it is of the path. -/
def GoodEmission (S : Finset UInt16) (val : Stamp → Bytes) (type : CrdtType) (hash : UInt32) (em : Emission) : Prop :=
  em.pathHash = hash → em.crdtType = type ∧ Proper S val type em.data

/-- A call, if it brings something for the path. -/
def GoodCall (S : Finset UInt16) (val : Stamp → Bytes) (type : CrdtType) (hash : UInt32) (call : Aggregator.Call) : Prop :=
  ∀ now crdtType data, call = .ingest now hash crdtType data → crdtType = type ∧ Proper S val type data

structure GoodAggregator (S : Finset UInt16) (val : Stamp → Bytes) (type : CrdtType) (hash : UInt32) (agg : Aggregator) :
    Prop where
  emits : agg.emits = true
  batch : ∀ bucket, agg.buckets[hash]? = some bucket →
    GoodBatch S val type bucket ∧ bucket.deltaCount < agg.config.maxBatchSize

section
variable (few : S.card ≤ 255) (zero : 0 ∈ S) (aggregated : Aggregated type) (first : val (toLex (0,0)) = [])
include zero aggregated first

/-- A payload goes into the batch of its path and raises its level. -/
theorem ingested {agg : Aggregator} (good : GoodAggregator S val type hash agg) {data : Bytes}
    (proper : Proper S val type data) (now : Nat) :
    ∃ bucket, ingestBucket now type data agg.buckets[hash]? = some bucket ∧ GoodBatch S val type bucket ∧
      level bucket.crdt = batchLevel agg.buckets[hash]? ⊔ brings type data := by
  cases found : agg.buckets[hash]? with
  | none =>
    obtain ⟨c,new,sane,empty⟩ := created aggregated zero first
    refine ⟨⟨type,(c.merge data).1,1,now⟩,by rw [ingestBucket,new],⟨sane.merge proper,rfl,?_⟩,?_⟩
    · exact (by decide : (1 : UInt32) ≠ 0)
    · rw [level_merge,empty,sane.type]
      rfl
  | some bucket =>
    obtain ⟨batch,room⟩ := good.batch bucket found
    refine ⟨_,rfl,⟨batch.sane.merge proper,batch.crdtType,count_ne_zero room⟩,?_⟩
    rw [level_merge,batch.sane.type]
    rfl

include few

theorem good_emissions {agg : Aggregator} (good : GoodAggregator S val type hash agg) {call : Aggregator.Call}
    (ok : GoodCall S val type hash call) : ∀ em ∈ (agg.apply call).2, GoodEmission S val type hash em := by
  intro em listed here
  obtain ⟨bucket,same,origin⟩ := emission_origin listed
  have batch : GoodBatch S val type bucket := by
    rw [here] at origin
    rcases origin with before | ⟨now,crdtType,data,rfl,filled⟩
    · exact (good.batch bucket before).1
    · obtain ⟨rfl,proper⟩ := ok now crdtType data rfl
      obtain ⟨bucket',filled',batch,_⟩ := ingested zero aggregated first good proper now
      cases filled.symm.trans filled'
      exact batch
  rw [same]
  exact ⟨batch.crdtType,batch.sane.proper_snapshot few⟩

/-- Of what an aggregator holds and is handed for a path, it goes on to hold some and
    puts out the rest. -/
theorem good_apply {agg : Aggregator} (good : GoodAggregator S val type hash agg) {call : Aggregator.Call}
    (ok : GoodCall S val type hash call) :
    GoodAggregator S val type hash (agg.apply call).1 ∧
    ∀ b, (batchLevel (agg.apply call).1.buckets[hash]? ≤ b ∧ ∀ em ∈ (agg.apply call).2, weight type hash em ≤ b) ↔
      batchLevel agg.buckets[hash]? ≤ b ∧ ∀ d ∈ payloads hash call, brings type d ≤ b := by
  obtain ⟨config,emits⟩ := apply_config agg call
  have snapshot : ∀ {bucket : Bucket}, GoodBatch S val type bucket →
      brings type bucket.crdt.snapshot = level bucket.crdt := by
    intro bucket batch
    have carried := brings_snapshot few (batch.sane.type.symm ▸ aggregated) batch.sane.within
    rwa [batch.sane.type] at carried
  simp only [weights_le_iff]
  rcases path_cases agg call hash with ⟨none,kept,quiet⟩ | ⟨now,crdtType,data,rfl,filled,room,quiet⟩ |
    ⟨now,crdtType,data,bucket,rfl,filled,gone,emitted⟩ | ⟨none,gone,emitted⟩
  · refine ⟨⟨emits.trans good.emits,?_⟩,fun b => ?_⟩
    · rw [kept,config]
      exact good.batch
    · rw [kept,quiet,none]
  · obtain ⟨rfl,proper⟩ := ok now crdtType data rfl
    obtain ⟨bucket,ingest,batch,raised⟩ := ingested zero aggregated first good proper now
    rw [ingest] at filled
    refine ⟨⟨emits.trans good.emits,?_⟩,fun b => ?_⟩
    · rw [config]
      intro bucket' found
      obtain rfl := Option.some.inj (filled.symm.trans found)
      exact ⟨batch,room bucket filled⟩
    · rw [filled,quiet,Aggregator.payloads_ingest,show batchLevel (some bucket) = level bucket.crdt from rfl,raised]
      simp
  · obtain ⟨rfl,proper⟩ := ok now crdtType data rfl
    obtain ⟨bucket',ingest,batch,raised⟩ := ingested zero aggregated first good proper now
    obtain rfl := Option.some.inj (filled.symm.trans ingest)
    refine ⟨⟨emits.trans good.emits,?_⟩,fun b => ?_⟩
    · intro bucket' found
      rw [gone] at found
      cases found
    · rw [gone,emitted,good.emits,putOut_of_counted batch.counted,Aggregator.payloads_ingest]
      simp only [List.forall_mem_singleton,snapshot batch,raised,sup_le_iff,batchLevel]
      exact and_iff_right (nothing_le b)
  · refine ⟨⟨emits.trans good.emits,?_⟩,fun b => ?_⟩
    · intro bucket' found
      rw [gone] at found
      cases found
    · rw [gone,emitted,none,pendingFor]
      cases found : agg.buckets[hash]? with
      | none => simp
      | some bucket =>
        obtain ⟨batch,_⟩ := good.batch bucket found
        rw [good.emits,Option.map_some,Option.getD_some,putOut_of_counted batch.counted]
        simp only [List.forall_mem_singleton,snapshot batch,batchLevel,List.not_mem_nil,false_implies,implies_true,and_true]
        exact and_iff_right (nothing_le b)

end

/-- A relay that forwards everything. -/
structure GoodRelay (S : Finset UInt16) (val : Stamp → Bytes) (type : CrdtType) (hash : UInt32) (node : RelayNode) :
    Prop where
  full : node.config.forwardTier = .full
  forwards : node.forwards = true
  aggregator : GoodAggregator S val type hash node.aggregator
  queue : ∀ em ∈ node.forwardQueue, GoodEmission S val type hash em

/-- A call passes to the aggregator; what that puts out is forwarded behind what is
    queued, or queued. -/
theorem relayCall_spec {node : RelayNode} (full : node.config.forwardTier = .full) (forwards : node.forwards = true)
    (call : RelayCall) :
    (call.apply node).1.config = node.config ∧ (call.apply node).1.forwards = node.forwards ∧
      (call.apply node).1.aggregator = (node.aggregator.apply call.aggregatorCall).1 ∧
      (call.apply node).2 ++ (call.apply node).1.forwardQueue =
        node.forwardQueue ++ (node.aggregator.apply call.aggregatorCall).2 := by
  cases call with
  | receiveDelta now pathHash crdtType data sourceNode =>
    have received : RelayCall.apply node (.receiveDelta now pathHash crdtType data sourceNode) =
        ({ node with
          deltasReceived := node.deltasReceived + 1
          lastSource := node.lastSource.insert pathHash sourceNode
          aggregator := (node.aggregator.ingest now pathHash crdtType data).1
          forwardQueue := node.forwardQueue ++ (node.aggregator.ingest now pathHash crdtType data).2 },[]) :=
      congrArg (fun node => (node,[])) (RelayNode.onAggregator_full { node with
        deltasReceived := node.deltasReceived + 1
        lastSource := node.lastSource.insert pathHash sourceNode } full now _)
    rw [received]
    exact ⟨rfl,rfl,rfl,rfl⟩
  | tick now =>
    have ticked : RelayCall.apply node (.tick now) = _ :=
      (congrArg RelayNode.processQueue (RelayNode.onAggregator_full node full now _)).trans (processQueue_eq forwards)
    rw [ticked]
    exact ⟨rfl,rfl,rfl,List.append_nil _⟩
  | flush now =>
    have flushed : RelayCall.apply node (.flush now) = _ :=
      (congrArg RelayNode.processQueue (RelayNode.onAggregator_full node full now _)).trans (processQueue_eq forwards)
    rw [flushed]
    exact ⟨rfl,rfl,rfl,List.append_nil _⟩

/-- Of what a relay holds and is handed for a path, it goes on to hold some and
    forwards the rest. -/
theorem good_relayCall (few : S.card ≤ 255) (zero : 0 ∈ S) (aggregated : Aggregated type)
    (first : val (toLex (0,0)) = []) {node : RelayNode} (good : GoodRelay S val type hash node) {call : RelayCall}
    (ok : GoodCall S val type hash call.aggregatorCall) :
    GoodRelay S val type hash (call.apply node).1 ∧ (∀ em ∈ (call.apply node).2, GoodEmission S val type hash em) ∧
    ∀ b, (held type hash (call.apply node).1 ≤ b ∧ ∀ em ∈ (call.apply node).2, weight type hash em ≤ b) ↔
      held type hash node ≤ b ∧ ∀ d ∈ payloads hash call.aggregatorCall, brings type d ≤ b := by
  obtain ⟨config,forwards,aggregator,queues⟩ := relayCall_spec good.full good.forwards call
  obtain ⟨goodAgg,levels⟩ := good_apply few zero aggregated first good.aggregator ok
  have emissions := good_emissions few zero aggregated first good.aggregator ok
  have all : ∀ {P : Emission → Prop}, (∀ em ∈ (call.apply node).2 ++ (call.apply node).1.forwardQueue, P em) ↔
      (∀ em ∈ node.forwardQueue, P em) ∧ ∀ em ∈ (node.aggregator.apply call.aggregatorCall).2, P em := by
    intro P
    rw [queues,List.forall_mem_append]
  have listed := all.mpr ⟨good.queue,emissions⟩
  rw [List.forall_mem_append] at listed
  refine ⟨⟨config ▸ good.full,forwards.trans good.forwards,aggregator ▸ goodAgg,listed.2⟩,listed.1,fun b => ?_⟩
  have pieces := all (P := fun em => weight type hash em ≤ b)
  rw [List.forall_mem_append] at pieces
  rw [held_le_iff,held_le_iff,aggregator]
  have level := levels b
  tauto

end

end Rom.RelayMesh
