import Rom.RelayMesh

/-!
Relays that lie in a circle. A relay keeps the source of the last delta of a path "for
loop prevention" (`relay_node.h`), but nothing reads it: what has entered a set of relays
each of which forwards to one of the set is passed on within it for ever, whatever the
batches, ticks and flushes are, and however messages are delayed or doubled
(`circle_never_quiet`).
-/
namespace Rom.RelayMesh
open Std Rom.Runs
open Rom.RelayRuns (RelayCall putOut_of_counted count_ne_zero)
open Rom.Aggregator (createCrdt ingestBucket payloads emittedFor pendingFor path_cases apply_config)

/-- The aggregator merges values of the type. -/
def Supported (type : CrdtType) : Prop := (createCrdt type).isSome = true

/-- The open batch of the path is put out when it is flushed. -/
structure Live (hash : UInt32) (agg : Aggregator) : Prop where
  emits : agg.emits = true
  batch : ∀ bucket, agg.buckets[hash]? = some bucket →
    Supported bucket.crdtType ∧ bucket.deltaCount ≠ 0 ∧ bucket.deltaCount < agg.config.maxBatchSize

section
variable {hash : UInt32}

theorem ingestBucket_live {agg : Aggregator} (live : Live hash agg) {now : Nat} {crdtType : CrdtType} {data : Bytes}
    {bucket : Bucket} (filled : ingestBucket now crdtType data agg.buckets[hash]? = some bucket) :
    Supported bucket.crdtType ∧ bucket.deltaCount ≠ 0 := by
  cases found : agg.buckets[hash]? with
  | none =>
    rw [found,ingestBucket] at filled
    cases created : createCrdt crdtType with
    | none =>
      rw [created] at filled
      cases filled
    | some c =>
      rw [created] at filled
      obtain rfl := Option.some.inj filled
      exact ⟨by rw [Supported,created]; rfl,(by decide : (1 : UInt32) ≠ 0)⟩
  | some before =>
    obtain ⟨supported,_,room⟩ := live.batch before found
    rw [found] at filled
    obtain rfl := Option.some.inj filled
    exact ⟨supported,count_ne_zero room⟩

theorem exists_of_emittedFor {emissions : List Emission} (some : emittedFor hash emissions ≠ []) :
    ∃ em ∈ emissions, em.pathHash = hash := by
  obtain ⟨d,listed⟩ := List.exists_mem_of_ne_nil _ some
  obtain ⟨em,chosen,_⟩ := List.mem_map.mp listed
  obtain ⟨member,here⟩ := List.mem_filter.mp chosen
  exact ⟨em,member,beq_iff_eq.mp here⟩

theorem live_emissions {agg : Aggregator} (live : Live hash agg) (call : Aggregator.Call) :
    ∀ em ∈ (agg.apply call).2, em.pathHash = hash → Supported em.crdtType := by
  intro em listed here
  obtain ⟨bucket,same,origin⟩ := emission_origin listed
  rw [same]
  rw [here] at origin
  rcases origin with before | ⟨now,crdtType,data,_,filled⟩
  · exact (live.batch bucket before).1
  · exact (ingestBucket_live live filled).1

/-- What is in the open batch of the path stays there or is put out. -/
theorem live_apply {agg : Aggregator} (live : Live hash agg) (call : Aggregator.Call) :
    Live hash (agg.apply call).1 ∧
    (agg.buckets[hash]?.isSome = true ∨ (∃ now crdtType data, call = .ingest now hash crdtType data ∧ Supported crdtType) →
      (agg.apply call).1.buckets[hash]?.isSome = true ∨ ∃ em ∈ (agg.apply call).2, em.pathHash = hash) := by
  obtain ⟨config,emits⟩ := apply_config agg call
  have none : ∀ {P : Prop} {bucket : Bucket}, (agg.apply call).1.buckets[hash]? = Option.none →
      (agg.apply call).1.buckets[hash]? = some bucket → P := by
    intro P bucket gone found
    rw [gone] at found
    cases found
  rcases path_cases agg call hash with ⟨quietCall,kept,_⟩ | ⟨now,crdtType,data,rfl,filled,room,_⟩ |
    ⟨now,crdtType,data,bucket,rfl,filled,gone,emitted⟩ | ⟨quietCall,gone,emitted⟩
  · refine ⟨⟨emits.trans live.emits,by rw [kept,config]; exact live.batch⟩,?_⟩
    rintro (held | ⟨now,crdtType,data,rfl,_⟩)
    · exact .inl (kept ▸ held)
    · rw [Aggregator.payloads_ingest] at quietCall
      cases quietCall
  · refine ⟨⟨emits.trans live.emits,?_⟩,?_⟩
    · intro bucket found
      obtain ⟨supported,counted⟩ := ingestBucket_live live (filled.symm.trans found)
      exact ⟨supported,counted,config.symm ▸ room bucket found⟩
    · intro busy
      refine .inl ?_
      rw [filled]
      cases found : agg.buckets[hash]? with
      | some before => rfl
      | none =>
        rcases busy with held | ⟨_,_,_,same,supported⟩
        · rw [found] at held
          cases held
        · obtain ⟨_,_,rfl,_⟩ := Aggregator.Call.ingest.inj same
          obtain ⟨c,created⟩ := Option.isSome_iff_exists.mp supported
          rw [ingestBucket,created]
          rfl
  · refine ⟨⟨emits.trans live.emits,fun _ found => none gone found⟩,fun _ => .inr (exists_of_emittedFor ?_)⟩
    rw [emitted,live.emits,putOut_of_counted (ingestBucket_live live filled).2]
    exact List.cons_ne_nil _ _
  · refine ⟨⟨emits.trans live.emits,fun _ found => none gone found⟩,?_⟩
    rintro (held | ⟨now,crdtType,data,rfl,_⟩)
    · obtain ⟨bucket,found⟩ := Option.isSome_iff_exists.mp held
      refine .inr (exists_of_emittedFor ?_)
      rw [emitted,pendingFor,found,Option.map_some,Option.getD_some,live.emits,
        putOut_of_counted (live.batch bucket found).2.1]
      exact List.cons_ne_nil _ _
    · rw [Aggregator.payloads_ingest] at quietCall
      cases quietCall

/-- Something of the path is in the relay. -/
def Holding (hash : UInt32) (node : RelayNode) : Prop :=
  node.aggregator.buckets[hash]?.isSome = true ∨ ∃ em ∈ node.forwardQueue, em.pathHash = hash

structure LiveRelay (hash : UInt32) (node : RelayNode) : Prop where
  full : node.config.forwardTier = .full
  forwards : node.forwards = true
  aggregator : Live hash node.aggregator
  queue : ∀ em ∈ node.forwardQueue, em.pathHash = hash → Supported em.crdtType

/-- The call brings something of the path. -/
def Brings (hash : UInt32) (call : RelayCall) : Prop :=
  ∃ now crdtType data, call.aggregatorCall = .ingest now hash crdtType data ∧ Supported crdtType

/-- What is in the relay stays there or is forwarded. -/
theorem live_relayCall {node : RelayNode} (live : LiveRelay hash node) (call : RelayCall) :
    LiveRelay hash (call.apply node).1 ∧ (∀ em ∈ (call.apply node).2, em.pathHash = hash → Supported em.crdtType) ∧
    (Holding hash node ∨ Brings hash call → Holding hash (call.apply node).1 ∨
      ∃ em ∈ (call.apply node).2, em.pathHash = hash) := by
  obtain ⟨config,forwards,aggregator,queues⟩ := relayCall_spec live.full live.forwards call
  obtain ⟨liveAgg,passes⟩ := live_apply live.aggregator call.aggregatorCall
  have listed : ∀ em ∈ (call.apply node).2 ++ (call.apply node).1.forwardQueue, em.pathHash = hash →
      Supported em.crdtType := by
    rw [queues,List.forall_mem_append]
    exact ⟨live.queue,live_emissions live.aggregator call.aggregatorCall⟩
  have goesOn : ∀ em ∈ node.forwardQueue ++ (node.aggregator.apply call.aggregatorCall).2, em.pathHash = hash →
      Holding hash (call.apply node).1 ∨ ∃ em ∈ (call.apply node).2, em.pathHash = hash := by
    rw [← queues]
    intro em member here
    rcases List.mem_append.mp member with out | kept
    · exact .inr ⟨em,out,here⟩
    · exact .inl (.inr ⟨em,kept,here⟩)
  rw [List.forall_mem_append] at listed
  refine ⟨⟨config ▸ live.full,forwards.trans live.forwards,aggregator ▸ liveAgg,listed.2⟩,listed.1,?_⟩
  rintro ((batch | ⟨em,member,here⟩) | brings)
  · rcases passes (.inl batch) with kept | ⟨em,member,here⟩
    · exact .inl (.inl (aggregator.symm ▸ kept))
    · exact goesOn em (List.mem_append_right _ member) here
  · exact goesOn em (List.mem_append_left _ member) here
  · rcases passes (.inr brings) with kept | ⟨em,member,here⟩
    · exact .inl (.inl (aggregator.symm ▸ kept))
    · exact goesOn em (List.mem_append_right _ member) here

end

section
variable {ι κ : Type*} {hash : UInt32} {C : ι → Prop}

structure LiveMesh (hash : UInt32) (m : Mesh ι κ) : Prop where
  relays : ∀ i, LiveRelay hash (m.relays i)
  sent : ∀ s ∈ m.sent, s.2.pathHash = hash → Supported s.2.crdtType
  numbered : ∀ k ∈ m.arrived, k < m.sent.length

/-- Something of the path is in one of the relays or on its way to one. -/
def Busy (C : ι → Prop) (hash : UInt32) (m : Mesh ι κ) : Prop :=
  (∃ i, C i ∧ Holding hash (m.relays i)) ∨
  ∃ (k : Nat) (j : ι) (em : Emission), m.sent[k]? = some (.inl j,em) ∧ C j ∧ em.pathHash = hash ∧ k ∉ m.arrived

/-- A payload of the path enters one of the relays. -/
def Enters (C : ι → Prop) (hash : UInt32) : MeshEvent ι → Prop
  | .call i call => C i ∧ Brings hash call
  | .arrive _ _ _ => False

variable [DecidableEq ι] {m : Mesh ι κ}

theorem liveRelay_update (live : LiveMesh hash m) {i : ι} {node : RelayNode} (liveNode : LiveRelay hash node) (j : ι) :
    LiveRelay hash (Function.update m.relays i node j) := by
  by_cases same : j = i
  · subst same
    simpa only [Function.update_self] using liveNode
  · simpa only [Function.update_of_ne same] using live.relays j

theorem holding_update {i : ι} {node : RelayNode} (m : Mesh ι κ) {j : ι} (held : Holding hash (m.relays j))
    (kept : j = i → Holding hash node) : Holding hash (Function.update m.relays i node j) := by
  by_cases same : j = i
  · subst same
    simpa only [Function.update_self] using kept rfl
  · simpa only [Function.update_of_ne same] using held

variable [DecidableEq κ] {links : ι → List (ι ⊕ κ)}

theorem busy_call (closed : ∀ i, C i → ∃ j, C j ∧ .inl j ∈ links i) (live : LiveMesh hash m) (i : ι) (call : RelayCall) :
    LiveMesh hash (meshStep links hash m (.call i call)) ∧
    (Busy C hash m ∨ Enters C hash (.call i call) → Busy C hash (meshStep links hash m (.call i call))) := by
  obtain ⟨liveNode,supported,passes⟩ := live_relayCall (live.relays i) call
  have older : ∀ {k : Nat} {s : (ι ⊕ κ) × Emission}, m.sent[k]? = some s →
      (meshStep links hash m (.call i call)).sent[k]? = some s := by
    intro k s found
    rw [meshStep,List.getElem?_append_left (List.getElem?_eq_some_iff.mp found).1,found]
  -- What the relay forwards goes to a relay of the circle and has not arrived.
  have forwarded : C i → (∃ em ∈ (call.apply (m.relays i)).2, em.pathHash = hash) →
      Busy C hash (meshStep links hash m (.call i call)) := by
    rintro inside ⟨em,member,here⟩
    obtain ⟨j,inside',linked⟩ := closed i inside
    have listed : (Sum.inl j,em) ∈ (call.apply (m.relays i)).2.flatMap (fun em => (links i).map (fun q => (q,em))) :=
      List.mem_flatMap.mpr ⟨em,member,List.mem_map.mpr ⟨.inl j,linked,rfl⟩⟩
    obtain ⟨k,found⟩ := List.mem_iff_getElem?.mp listed
    refine .inr ⟨m.sent.length + k,j,em,?_,inside',here,fun early => ?_⟩
    · rw [meshStep,List.getElem?_append_right (Nat.le_add_right _ _),Nat.add_sub_cancel_left,found]
    · exact absurd (live.numbered _ early) (by omega)
  have atRelay : C i → Holding hash (m.relays i) ∨ Brings hash call →
      Busy C hash (meshStep links hash m (.call i call)) := by
    intro inside some
    rcases passes some with kept | out
    · refine .inl ⟨i,inside,?_⟩
      simpa only [meshStep,Function.update_self] using kept
    · exact forwarded inside out
  refine ⟨⟨liveRelay_update live liveNode,?_,?_⟩,?_⟩
  · intro s listed
    rcases List.mem_append.mp listed with before | now
    · exact live.sent s before
    · obtain ⟨em,member,copies⟩ := List.mem_flatMap.mp now
      obtain ⟨q,_,rfl⟩ := List.mem_map.mp copies
      exact supported em member
  · intro k member
    exact (live.numbered k member).trans_le (by simp [meshStep])
  · rintro ((⟨j,inside,held⟩ | ⟨k,j,em,found,inside,here,away⟩) | ⟨inside,brings⟩)
    · by_cases same : j = i
      · subst same
        exact atRelay inside (.inl held)
      · exact .inl ⟨j,inside,holding_update m held (fun eq => absurd eq same)⟩
    · exact .inr ⟨k,j,em,older found,inside,here,away⟩
    · exact atRelay inside (.inr brings)

theorem busy_arrive (links : ι → List (ι ⊕ κ)) (live : LiveMesh hash m) (k now : Nat) (sourceNode : UInt16) :
    LiveMesh hash (meshStep links hash m (.arrive k now sourceNode)) ∧
    (Busy C hash m → Busy C hash (meshStep links hash m (.arrive k now sourceNode))) := by
  rw [meshStep]
  cases found : m.sent[k]? with
  | none => exact ⟨live,id⟩
  | some s =>
    have numbered : ∀ j ∈ k :: m.arrived, j < m.sent.length := by
      intro j member
      rcases List.mem_cons.mp member with rfl | before
      · exact (List.getElem?_eq_some_iff.mp found).1
      · exact live.numbered j before
    obtain ⟨place,em⟩ := s
    cases place with
    | inr r =>
      refine ⟨⟨live.relays,live.sent,numbered⟩,?_⟩
      rintro (held | ⟨k',j,em',found',inside,here,away⟩)
      · exact .inl held
      · refine .inr ⟨k',j,em',found',inside,here,fun arrived => ?_⟩
        rcases List.mem_cons.mp arrived with rfl | before
        · cases found.symm.trans found'
        · exact away before
    | inl i =>
      obtain ⟨liveNode,_,passes⟩ := live_relayCall (live.relays i)
        (.receiveDelta now em.pathHash em.crdtType em.data sourceNode)
      have kept : Holding hash (m.relays i) ∨ Brings hash (.receiveDelta now em.pathHash em.crdtType em.data sourceNode) →
          Holding hash ((m.relays i).receiveDelta now em.pathHash em.crdtType em.data sourceNode) := by
        intro some
        rcases passes some with kept | ⟨_,never,_⟩
        · exact kept
        · cases never
      refine ⟨⟨liveRelay_update live liveNode,live.sent,numbered⟩,?_⟩
      rintro (⟨j,inside,held⟩ | ⟨k',j,em',found',inside,here,away⟩)
      · exact .inl ⟨j,inside,holding_update m held (fun same => kept (.inl (same ▸ held)))⟩
      · by_cases same : k' = k
        · subst same
          obtain ⟨rfl,rfl⟩ : i = j ∧ em = em' := by simpa using found.symm.trans found'
          refine .inl ⟨i,inside,?_⟩
          simp only [Function.update_self]
          subst here
          exact kept (.inr ⟨now,em.crdtType,em.data,rfl,live.sent _ (List.mem_of_getElem? found) rfl⟩)
        · refine .inr ⟨k',j,em',found',inside,here,fun arrived => ?_⟩
          rcases List.mem_cons.mp arrived with now | before
          · exact same now
          · exact away before

theorem busy_run (closed : ∀ i, C i → ∃ j, C j ∧ .inl j ∈ links i) (live : LiveMesh hash m) {es : List (MeshEvent ι)}
    (busy : Busy C hash m ∨ ∃ e ∈ es, Enters C hash e) : Busy C hash (run (meshStep links hash) m es) := by
  induction es generalizing m with
  | nil =>
    rcases busy with busy | ⟨e,never,_⟩
    · exact busy
    · cases never
  | cons e es ih =>
    have step : LiveMesh hash (meshStep links hash m e) ∧
        (Busy C hash m ∨ Enters C hash e → Busy C hash (meshStep links hash m e)) := by
      cases e with
      | call i call => exact busy_call closed live i call
      | arrive k now sourceNode =>
        obtain ⟨live',keeps⟩ := busy_arrive (C := C) links live k now sourceNode
        exact ⟨live',fun some => keeps (some.resolve_right id)⟩
    refine ih step.1 ?_
    rcases busy with busy | ⟨e',member,enters⟩
    · exact .inl (step.2 (.inl busy))
    · rcases List.mem_cons.mp member with rfl | later
      · exact .inl (step.2 (.inr enters))
      · exact .inr ⟨e',later,enters⟩

end

theorem liveMesh_new {ι κ : Type*} (hash : UInt32) (ids : ι → UInt16) {configs : ι → RelayConfig}
    (full : ∀ i, (configs i).forwardTier = .full) (replicas : κ → Crdt) : LiveMesh hash (newMesh ids configs replicas) where
  relays i :=
    { full := full i
      forwards := rfl
      aggregator :=
        { emits := rfl
          batch := by
            intro bucket found
            rw [show ((newMesh ids configs replicas).relays i).aggregator.buckets = ∅ from rfl,
              ExtTreeMap.getElem?_empty] at found
            cases found }
      queue := fun em member => by cases member }
  sent s member := by cases member
  numbered k member := by cases member

/-- Once a payload has entered relays of which each forwards to one of them, something
    of its path is in them or on its way between them for ever. -/
theorem circle_never_quiet {ι κ : Type*} [DecidableEq ι] [DecidableEq κ] (links : ι → List (ι ⊕ κ)) (hash : UInt32)
    (ids : ι → UInt16) (configs : ι → RelayConfig) (full : ∀ i, (configs i).forwardTier = .full) (replicas : κ → Crdt)
    (C : ι → Prop) (closed : ∀ i, C i → ∃ j, C j ∧ .inl j ∈ links i) (es : List (MeshEvent ι)) {i : ι} (inside : C i)
    {now : Nat} {crdtType : CrdtType} {data : Bytes} {sourceNode : UInt16} (supported : Supported crdtType)
    (entered : .call i (.receiveDelta now hash crdtType data sourceNode) ∈ es) :
    Busy C hash (run (meshStep links hash) (newMesh ids configs replicas) es) :=
  busy_run closed (liveMesh_new hash ids full replicas)
    (.inr ⟨_,entered,inside,now,crdtType,data,rfl,supported⟩)

/-- Two relays that forward to each other. -/
def circle : Bool → List (Bool ⊕ Unit) := fun i => [.inl !i]

/-- A count is passed round once. -/
def passedRound : List (MeshEvent Bool) :=
  [.call false (.receiveDelta 0 5 .gCounter countOne 1),.call false (.flush 1),.arrive 0 2 9,.call true (.flush 3),
    .arrive 1 4 9,.call false (.flush 5)]

theorem circle_never_quiet_two_relays :
    Busy (fun _ => True) 5 (run (meshStep circle 5) (newMesh (fun _ => 9) (fun _ => {}) (fun _ => .gCounter (.new 3)))
      passedRound) :=
  circle_never_quiet circle 5 (fun _ => 9) (fun _ => {}) (fun _ => rfl) (fun _ => .gCounter (.new 3)) (fun _ => True)
    (fun i _ => ⟨!i,trivial,List.mem_singleton.mpr rfl⟩) passedRound trivial
    (show Supported .gCounter from rfl) List.mem_cons_self

end Rom.RelayMesh
