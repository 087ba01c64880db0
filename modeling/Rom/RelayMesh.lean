import Rom.RelayLevels
import Rom.Flows
import Rom.Refinement

/-!
Relay nodes in a mesh (`relay_node.h`: relays forward to each other). Each relay hands
what it forwards to the relays and replicas linked to it; a message may arrive late, in
any order and more than once, and links may form circles. Relays pass levels on as a
flow of `Rom.Flows` (`mesh_step`, `mesh_run`). A replica that has what is pending before
it is left as one that merges the payloads themselves, those of the relays that lead to
it (`mesh_transparent`).
-/
namespace Rom.RelayMesh
open Std Rom.Runs Rom.Flows
open Rom.RelayRuns (view Aggregated nodesIn RelayCall)
open Rom.Aggregator (payloads)
open Rom.Crdt (mergeAll typeOf_mergeAll)
open Rom.LwwRegister (Stamp)

/-- Relays and replicas, with what relays have handed to which of them. -/
structure Mesh (ι κ : Type*) where
  relays : ι → RelayNode
  replicas : κ → Crdt
  sent : List ((ι ⊕ κ) × Emission)
  arrived : List Nat

/-- A call on a relay from outside, or the arrival of a message that was sent. -/
inductive MeshEvent (ι : Type*) where
  | call (i : ι) (call : RelayCall)
  | arrive (k : Nat) (now : Nat) (sourceNode : UInt16)

section
variable {ι κ : Type*} [DecidableEq ι] [DecidableEq κ] (links : ι → List (ι ⊕ κ)) (hash : UInt32)

/-- The replicas are those of one path, and leave the messages of others alone. -/
def meshStep (m : Mesh ι κ) : MeshEvent ι → Mesh ι κ
  | .call i call =>
    { m with
      relays := Function.update m.relays i (call.apply (m.relays i)).1
      sent := m.sent ++ (call.apply (m.relays i)).2.flatMap (fun em => (links i).map (fun q => (q,em))) }
  | .arrive k now sourceNode =>
    match m.sent[k]? with
    | none => m
    | some (.inl j,em) =>
      { m with
        relays := Function.update m.relays j
          ((m.relays j).receiveDelta now em.pathHash em.crdtType em.data sourceNode)
        arrived := k :: m.arrived }
    | some (.inr r,em) =>
      { m with
        replicas := if em.pathHash = hash then Function.update m.replicas r ((m.replicas r).merge em.data).1 else m.replicas
        arrived := k :: m.arrived }

/-- New relays, and replicas in any state. -/
def newMesh (ids : ι → UInt16) (configs : ι → RelayConfig) (replicas : κ → Crdt) : Mesh ι κ where
  relays i := (RelayNode.new (ids i) (configs i)).setForwardCallback
  replicas := replicas
  sent := []
  arrived := []

end

/-- The places that a place hands on to. -/
def next {ι κ : Type*} (links : ι → List (ι ⊕ κ)) : ι ⊕ κ → List (ι ⊕ κ) := Sum.elim links (fun _ => [])

/-- The mesh as a flow of levels. -/
def flow {ι κ : Type*} (type : CrdtType) (hash : UInt32) (m : Mesh ι κ) : Spread (ι ⊕ κ) Level where
  held := Sum.elim (fun i => held type hash (m.relays i)) (fun r => level (m.replicas r))
  sent := m.sent.map (fun s => (s.1,weight type hash s.2))
  arrived := m.arrived

/-- What an event of the mesh is to the flow. -/
def flowEvent {ι κ : Type*} (type : CrdtType) (hash : UInt32) (m : Mesh ι κ) : MeshEvent ι → Flows.Event (ι ⊕ κ) Level
  | .call i (.receiveDelta _ pathHash crdtType data _) => .add (.inl i) (weight type hash ⟨pathHash,crdtType,data⟩)
  | .call i call =>
    .pour (.inl i) ((call.apply (m.relays i)).2.map (weight type hash)) (held type hash (call.apply (m.relays i)).1)
  | .arrive k _ _ => .arrive k

section
variable {ι κ : Type*} {links : ι → List (ι ⊕ κ)} {hash : UInt32} {type : CrdtType}

/-- A replica hands nothing on. -/
theorem leads_replica {q r : κ} (leads : Leads (next links) (.inr q) (.inr r)) : q = r := by
  rcases leads.cases_head with same | ⟨_,step,_⟩
  · exact Sum.inr.inj same
  · cases step

theorem addsBelow_flowEvent (m : Mesh ι κ) (e : MeshEvent ι) (r : ι ⊕ κ) (b : Level) :
    AddsBelow (next links) r b (flowEvent type hash m e) ↔
      ∀ i now crdtType data sourceNode, e = .call i (.receiveDelta now hash crdtType data sourceNode) →
        Leads (next links) (.inl i) r → brings type data ≤ b := by
  cases e with
  | call i call =>
    cases call with
    | receiveDelta now pathHash crdtType data sourceNode =>
      constructor
      · rintro adds _ _ _ _ _ ⟨rfl⟩ leads
        have bound := adds (.inl i) _ rfl leads
        rwa [weight,if_pos rfl] at bound
      · intro all p x same leads
        obtain ⟨rfl,rfl⟩ := Flows.Event.add.inj same
        rw [weight]
        split
        · next here =>
          subst here
          exact all i now crdtType data sourceNode rfl leads
        · exact nothing_le b
    | tick now => exact ⟨fun _ _ _ _ _ _ same => (by cases same),fun _ _ _ same => (by cases same)⟩
    | flush now => exact ⟨fun _ _ _ _ _ _ same => (by cases same),fun _ _ _ same => (by cases same)⟩
  | arrive k now sourceNode => exact ⟨fun _ _ _ _ _ _ same => (by cases same),fun _ _ _ same => (by cases same)⟩

end

/-- Relays and messages are as they should be, and so are the replicas' types. -/
structure GoodMesh {ι κ : Type*} (S : Finset UInt16) (val : Stamp → Bytes) (type : CrdtType) (hash : UInt32)
    (m : Mesh ι κ) : Prop where
  relays : ∀ i, GoodRelay S val type hash (m.relays i)
  sent : ∀ s ∈ m.sent, GoodEmission S val type hash s.2
  replicas : ∀ r, (m.replicas r).typeOf = type ∧ Reads val (m.replicas r)

theorem goodMesh_new {ι κ : Type*} {S : Finset UInt16} {val : Stamp → Bytes} {type : CrdtType} {hash : UInt32}
    (ids : ι → UInt16) {configs : ι → RelayConfig} (full : ∀ i, (configs i).forwardTier = .full)
    {replicas : κ → Crdt} (typed : ∀ r, (replicas r).typeOf = type ∧ Reads val (replicas r)) :
    GoodMesh S val type hash (newMesh ids configs replicas) where
  relays i :=
    { full := full i
      forwards := rfl
      aggregator :=
        { emits := rfl
          batch := by
            intro bucket found
            rw [show (newMesh ids configs replicas).relays i =
                (RelayNode.new (ids i) (configs i)).setForwardCallback from rfl,
              RelayNode.setForwardCallback,RelayNode.new] at found
            simp at found }
      queue := fun em member => by cases member }
  sent s member := by cases member
  replicas := typed

/-- What an event brings for the path from outside is of its type and proper. -/
def GoodEvent {ι : Type*} (S : Finset UInt16) (val : Stamp → Bytes) (type : CrdtType) (hash : UInt32) : MeshEvent ι → Prop
  | .call _ call => GoodCall S val type hash call.aggregatorCall
  | .arrive _ _ _ => True

section
variable {ι κ : Type*} [DecidableEq ι] [DecidableEq κ] {links : ι → List (ι ⊕ κ)} {hash : UInt32} {type : CrdtType}
variable {S : Finset UInt16} {val : Stamp → Bytes} {m : Mesh ι κ}

theorem held_update_relay (m : Mesh ι κ) (i : ι) (node : RelayNode) :
    (Sum.elim (fun j => held type hash (Function.update m.relays i node j)) (fun r => level (m.replicas r)) :
      ι ⊕ κ → Level) =
      Function.update (flow type hash m).held (.inl i) (held type hash node) := by
  rw [flow,Sum.update_elim_inl]
  congr 1
  exact (Function.comp_update (held type hash) m.relays i node)

theorem held_update_replica (m : Mesh ι κ) (r : κ) (c : Crdt) :
    (Sum.elim (fun j => held type hash (m.relays j)) (fun q => level (Function.update m.replicas r c q)) : ι ⊕ κ → Level) =
      Function.update (flow type hash m).held (.inr r) (level c) := by
  rw [flow,Sum.update_elim_inr]
  congr 1
  exact (Function.comp_update level m.replicas r c)

section
variable (few : S.card ≤ 255) (zero : 0 ∈ S) (aggregated : Aggregated type) (first : val (toLex (0,0)) = [])
include few zero aggregated first

/-- What a relay receives raises what it holds, and it forwards nothing. -/
theorem held_receiveDelta {node : RelayNode} (good : GoodRelay S val type hash node) (now : Nat) {em : Emission}
    (proper : GoodEmission S val type hash em) (sourceNode : UInt16) :
    GoodRelay S val type hash (node.receiveDelta now em.pathHash em.crdtType em.data sourceNode) ∧
      held type hash (node.receiveDelta now em.pathHash em.crdtType em.data sourceNode) =
        held type hash node ⊔ weight type hash em := by
  have ok : GoodCall S val type hash
      (RelayCall.receiveDelta now em.pathHash em.crdtType em.data sourceNode).aggregatorCall := by
    intro now' crdtType data same
    obtain ⟨_,here,rfl,rfl⟩ := Aggregator.Call.ingest.inj same
    exact proper here
  obtain ⟨good',_,levels⟩ := good_relayCall few zero aggregated first good ok
  refine ⟨good',eq_of_forall_ge_iff fun b => ?_⟩
  have raised := levels b
  rw [show (RelayCall.apply node (.receiveDelta now em.pathHash em.crdtType em.data sourceNode)).2 = [] from rfl] at raised
  rw [sup_le_iff]
  refine (Iff.trans ?_ raised).trans (and_congr_right fun _ => ?_)
  · simp [RelayCall.apply]
  · show (∀ d ∈ (if em.pathHash = hash then [em.data] else []), brings type d ≤ b) ↔ weight type hash em ≤ b
    rw [weight]
    split
    · simp
    · simp [nothing_le b]

theorem mesh_step_receive (good : GoodMesh S val type hash m) (i : ι) (now : Nat) {em : Emission}
    (proper : GoodEmission S val type hash em) (sourceNode : UInt16) :
    GoodMesh S val type hash { m with
      relays := Function.update m.relays i ((m.relays i).receiveDelta now em.pathHash em.crdtType em.data sourceNode) } ∧
    (flow type hash { m with
      relays := Function.update m.relays i
        ((m.relays i).receiveDelta now em.pathHash em.crdtType em.data sourceNode) }).held =
      Function.update (flow type hash m).held (.inl i) ((flow type hash m).held (.inl i) ⊔ weight type hash em) := by
  obtain ⟨good',raised⟩ := held_receiveDelta few zero aggregated first (good.relays i) now proper sourceNode
  refine ⟨⟨?_,good.sent,good.replicas⟩,?_⟩
  · intro j
    by_cases same : j = i
    · subst same
      simpa only [Function.update_self] using good'
    · simpa only [Function.update_of_ne same] using good.relays j
  · refine (held_update_relay m i _).trans ?_
    rw [raised]
    rfl

/-- A tick or a flush pours. -/
theorem mesh_step_pour (good : GoodMesh S val type hash m) (i : ι) {call : RelayCall}
    (quiet : payloads hash call.aggregatorCall = []) (ok : GoodCall S val type hash call.aggregatorCall) (r : κ) :
    GoodMesh S val type hash (meshStep links hash m (.call i call)) ∧
    flow type hash (meshStep links hash m (.call i call)) =
      Flows.step (next links) (flow type hash m)
        (.pour (.inl i) ((call.apply (m.relays i)).2.map (weight type hash)) (held type hash (call.apply (m.relays i)).1)) ∧
    Fair (.inr r) (flow type hash m)
      (.pour (.inl i) ((call.apply (m.relays i)).2.map (weight type hash))
        (held type hash (call.apply (m.relays i)).1)) := by
  obtain ⟨good',emissions,levels⟩ := good_relayCall few zero aggregated first (good.relays i) ok
  refine ⟨⟨?_,?_,good.replicas⟩,Spread.ext (held_update_relay m i _) ?_ rfl,Sum.inl_ne_inr,fun b => ?_⟩
  · intro j
    by_cases same : j = i
    · subst same
      simpa only [meshStep,Function.update_self] using good'
    · simpa only [meshStep,Function.update_of_ne same] using good.relays j
  · intro s listed
    rcases List.mem_append.mp listed with before | now
    · exact good.sent s before
    · obtain ⟨em,member,to'⟩ := List.mem_flatMap.mp now
      obtain ⟨q,_,rfl⟩ := List.mem_map.mp to'
      exact emissions em member
  · simp only [flow,meshStep,Flows.step,messages,next,List.map_append,List.map_flatMap,List.flatMap_map,List.map_map,
      Sum.elim_inl,Function.comp_def]
  · have level := levels b
    rw [quiet] at level
    simp only [List.not_mem_nil,false_implies,implies_true,and_true] at level
    rw [List.forall_mem_map]
    exact level.symm

omit few zero aggregated first in
/-- A payload that reaches a replica raises it, if it is of the path. -/
theorem mesh_step_merge (good : GoodMesh S val type hash m) (q : κ) {em : Emission}
    (proper : GoodEmission S val type hash em) :
    GoodMesh S val type hash { m with
      replicas :=
        if em.pathHash = hash then Function.update m.replicas q ((m.replicas q).merge em.data).1 else m.replicas } ∧
    (flow type hash { m with
      replicas :=
        if em.pathHash = hash then Function.update m.replicas q ((m.replicas q).merge em.data).1
        else m.replicas }).held =
      Function.update (flow type hash m).held (.inr q) ((flow type hash m).held (.inr q) ⊔ weight type hash em) := by
  obtain ⟨typed,reads⟩ := good.replicas q
  by_cases here : em.pathHash = hash
  · obtain ⟨_,fits⟩ := proper here
    simp only [if_pos here]
    refine ⟨⟨good.relays,good.sent,?_⟩,?_⟩
    · intro q'
      by_cases same : q' = q
      · subst same
        simp only [Function.update_self]
        exact ⟨(Crdt.typeOf_merge _ _).trans typed,reads_merge reads (typed.symm ▸ fits.tells)⟩
      · simp only [Function.update_of_ne same]
        exact good.replicas q'
    · refine (held_update_replica m q _).trans ?_
      rw [level_merge,typed]
      simp only [weight,if_pos here]
      rfl
  · simp only [if_neg here]
    refine ⟨good,?_⟩
    simp only [weight,if_neg here]
    rw [sup_eq_left.mpr (nothing_le _),Function.update_eq_self]

/-- Each event of the mesh is one of the flow, which neither loses nor makes up
    anything. -/
theorem mesh_step (links : ι → List (ι ⊕ κ)) (good : GoodMesh S val type hash m) {e : MeshEvent ι}
    (ok : GoodEvent S val type hash e) (r : κ) :
    GoodMesh S val type hash (meshStep links hash m e) ∧
    flow type hash (meshStep links hash m e) = Flows.step (next links) (flow type hash m) (flowEvent type hash m e) ∧
    Fair (.inr r) (flow type hash m) (flowEvent type hash m e) := by
  cases e with
  | call i call =>
    cases call with
    | receiveDelta now pathHash crdtType data sourceNode =>
      have proper : GoodEmission S val type hash ⟨pathHash,crdtType,data⟩ := by
        rintro rfl
        exact ok now crdtType data rfl
      obtain ⟨good',raised⟩ := mesh_step_receive few zero aggregated first good i now proper sourceNode
      refine ⟨⟨good'.relays,?_,good.replicas⟩,Spread.ext raised ?_ rfl,trivial⟩
      · intro s listed
        exact good.sent s (by simpa [meshStep,RelayCall.apply] using listed)
      · show (m.sent ++ []).map _ = m.sent.map _
        rw [List.append_nil]
    | tick now => exact mesh_step_pour few zero aggregated first good i rfl ok r
    | flush now => exact mesh_step_pour few zero aggregated first good i rfl ok r
  | arrive k now sourceNode =>
    rw [meshStep,flowEvent,Flows.step]
    have sent : (flow type hash m).sent[k]? = m.sent[k]?.map (fun s => (s.1,weight type hash s.2)) := List.getElem?_map
    rw [sent]
    cases found : m.sent[k]? with
    | none => exact ⟨good,rfl,trivial⟩
    | some s =>
      obtain ⟨place,em⟩ := s
      have proper := good.sent _ (List.mem_of_getElem? found)
      cases place with
      | inl j =>
        obtain ⟨good',raised⟩ := mesh_step_receive few zero aggregated first good j now proper sourceNode
        exact ⟨⟨good'.relays,good.sent,good.replicas⟩,Spread.ext raised rfl rfl,trivial⟩
      | inr q =>
        obtain ⟨good',raised⟩ := mesh_step_merge good q proper
        exact ⟨⟨good.relays,good.sent,good'.replicas⟩,Spread.ext raised rfl rfl,trivial⟩

/-- A run of the mesh is one of the flow. -/
theorem mesh_run (links : ι → List (ι ⊕ κ)) (good : GoodMesh S val type hash m) {es : List (MeshEvent ι)}
    (ok : ∀ e ∈ es, GoodEvent S val type hash e)
    (r : κ) :
    GoodMesh S val type hash (run (meshStep links hash) m es) ∧
    flow type hash (run (meshStep links hash) m es) = run (Flows.step (next links)) (flow type hash m)
      (outputs (meshStep links hash) (fun m e => [flowEvent type hash m e]) m es) ∧
    Along (Flows.step (next links)) (Fair (.inr r)) (flow type hash m)
      (outputs (meshStep links hash) (fun m e => [flowEvent type hash m e]) m es) := by
  refine Refinement.read_run (fun m e good ok => ?_) good (Refinement.along_of_mem ok)
  obtain ⟨good',same,fair⟩ := mesh_step few zero aggregated first links good ok r
  exact ⟨good',same,fair,trivial⟩

end

/-- What flows in from outside: the payloads of the path that relays are handed. -/
theorem addsBelow_iff (es : List (MeshEvent ι)) (m : Mesh ι κ) (r : ι ⊕ κ) (b : Level) :
    (∀ e ∈ outputs (meshStep links hash) (fun m e => [flowEvent type hash m e]) m es, AddsBelow (next links) r b e) ↔
      ∀ i now crdtType data sourceNode, .call i (.receiveDelta now hash crdtType data sourceNode) ∈ es →
        Leads (next links) (.inl i) r → brings type data ≤ b := by
  induction es generalizing m with
  | nil => simp [outputs]
  | cons e es ih =>
    rw [outputs,List.forall_mem_append,ih,List.forall_mem_singleton]
    rw [addsBelow_flowEvent]
    constructor
    · rintro ⟨here,later⟩ i now crdtType data sourceNode member
      rcases List.mem_cons.mp member with same | rest
      · exact here i now crdtType data sourceNode same.symm
      · exact later i now crdtType data sourceNode rest
    · intro all
      refine ⟨?_,?_⟩
      · rintro i now crdtType data sourceNode rfl
        exact all i now crdtType data sourceNode List.mem_cons_self
      · intro i now crdtType data sourceNode member
        exact all i now crdtType data sourceNode (List.mem_cons_of_mem _ member)

end

section
variable {ι κ : Type*} {hash : UInt32} {type : CrdtType} {val : Stamp → Bytes} {m : Mesh ι κ}

/-- The replica has what relays that lead to it hold, and what is on its way to them or
    to it. So it is if nothing is pending before it. -/
structure Caught (links : ι → List (ι ⊕ κ)) (hash : UInt32) (type : CrdtType) (r : κ) (m : Mesh ι κ) : Prop where
  batches : ∀ i, Leads (next links) (.inl i) (.inr r) → ∀ bucket, (m.relays i).aggregator.buckets[hash]? = some bucket →
    level bucket.crdt ≤ level (m.replicas r)
  queues : ∀ i, Leads (next links) (.inl i) (.inr r) → ∀ em ∈ (m.relays i).forwardQueue, em.pathHash = hash →
    brings type em.data ≤ level (m.replicas r)
  onWay : ∀ k s, m.sent[k]? = some s → k ∉ m.arrived → Leads (next links) s.1 (.inr r) → s.2.pathHash = hash →
    brings type s.2.data ≤ level (m.replicas r)

theorem Caught.below {links : ι → List (ι ⊕ κ)} {r : κ} (caught : Caught links hash type r m) :
    Below (next links) (.inr r) ((flow type hash m).held (.inr r)) (flow type hash m) where
  held p leads := by
    cases p with
    | inl i =>
      refine (held_le_iff _ _).mpr ⟨?_,?_⟩
      · cases found : (m.relays i).aggregator.buckets[hash]? with
        | none => exact nothing_le _
        | some bucket => exact caught.batches i leads bucket found
      · intro em member
        rw [weight]
        split
        · next here => exact caught.queues i leads em member here
        · exact nothing_le _
    | inr q => rw [leads_replica leads]
  onWay k s found away leads := by
    rw [show (flow type hash m).sent = m.sent.map (fun s => (s.1,weight type hash s.2)) from rfl,List.getElem?_map] at found
    obtain ⟨s',found',rfl⟩ := Option.map_eq_some_iff.mp found
    show weight type hash s'.2 ≤ _
    rw [weight]
    split
    · next here => exact caught.onWay k s' found' away leads here
    · exact nothing_le _

theorem reads_mergeAll {c : Crdt} {ds : List Bytes} (reads : Reads val c) (tells : ∀ d ∈ ds, Tells val c.typeOf d) :
    Reads val (mergeAll c ds) := by
  induction ds generalizing c with
  | nil => exact reads
  | cons d ds ih =>
    rw [List.forall_mem_cons] at tells
    refine ih (reads_merge reads tells.1) ?_
    rw [Crdt.typeOf_merge]
    exact tells.2

/-- New relays hold nothing. -/
theorem held_newMesh (ids : ι → UInt16) (configs : ι → RelayConfig) (replicas : κ → Crdt) {links : ι → List (ι ⊕ κ)} (r : κ)
    (b : Level) :
    (∀ p, Leads (next links) p (.inr r) → (flow type hash (newMesh ids configs replicas)).held p ≤ b) ↔
      level (replicas r) ≤ b := by
  refine ⟨fun all => all (.inr r) .refl,?_⟩
  intro bound p leads
  cases p with
  | inl i =>
    have empty : batchLevel ((newMesh ids configs replicas).relays i).aggregator.buckets[hash]? = nothing := by
      rw [show ((newMesh ids configs replicas).relays i).aggregator.buckets = ∅ from rfl,ExtTreeMap.getElem?_empty]
      rfl
    refine (held_le_iff _ _).mpr ⟨empty ▸ nothing_le b,?_⟩
    intro em member
    cases member
  | inr q =>
    rw [leads_replica leads]
    exact bound

end

/-- What an event brings from outside for a path. -/
def brought {ι : Type*} (hash : UInt32) : MeshEvent ι → List Bytes
  | .call _ call => payloads hash call.aggregatorCall
  | .arrive _ _ _ => []

/-- Relays in a mesh of any shape are transparent for registers and counters: a
    replica that has caught up is left as one that merges the payloads which relays
    that lead to it were handed, in any order, where a stamp tells its value. -/
theorem mesh_transparent {ι κ : Type*} [DecidableEq ι] [DecidableEq κ] (links : ι → List (ι ⊕ κ)) (hash : UInt32)
    (type : CrdtType) (aggregated : Aggregated type) (ids : ι → UInt16) (configs : ι → RelayConfig)
    (full : ∀ i, (configs i).forwardTier = .full) (val : Stamp → Bytes) (first : val (toLex (0,0)) = [])
    (replicas : κ → Crdt) (typed : ∀ r, (replicas r).typeOf = type ∧ Reads val (replicas r)) (es : List (MeshEvent ι))
    (told : ∀ i now crdtType data sourceNode, .call i (.receiveDelta now hash crdtType data sourceNode) ∈ es →
      crdtType = type ∧ Tells val type data)
    (few : ((es.flatMap (brought hash)).flatMap (nodesIn type)).toFinset.card ≤ 254) (r : κ)
    (caught : Caught links hash type r (run (meshStep links hash) (newMesh ids configs replicas) es)) (ds : List Bytes)
    (upstream : ∀ d, d ∈ ds ↔ ∃ i now crdtType sourceNode,
      .call i (.receiveDelta now hash crdtType d sourceNode) ∈ es ∧ Leads (next links) (.inl i) (.inr r)) :
    view ((run (meshStep links hash) (newMesh ids configs replicas) es).replicas r) = view (mergeAll (replicas r) ds) := by
  let S := insert 0 ((es.flatMap (brought hash)).flatMap (nodesIn type)).toFinset
  have card : S.card ≤ 255 := (Finset.card_insert_le _ _).trans (Nat.succ_le_succ few)
  have ok : ∀ e ∈ es, GoodEvent S val type hash e := by
    intro e member
    cases e with
    | call i call =>
      intro now crdtType data same
      cases call with
      | receiveDelta now' pathHash crdtType' data' sourceNode =>
        obtain ⟨rfl,rfl,rfl,rfl⟩ := Aggregator.Call.ingest.inj same
        obtain ⟨rfl,tells⟩ := told i now' crdtType' data' sourceNode member
        refine ⟨rfl,?_,tells⟩
        intro n named
        refine Finset.mem_insert_of_mem (List.mem_toFinset.mpr (List.mem_flatMap.mpr ⟨data',?_,named⟩))
        refine List.mem_flatMap.mpr ⟨_,member,?_⟩
        show data' ∈ payloads pathHash (.ingest now' pathHash crdtType' data')
        rw [Aggregator.payloads_ingest]
        exact List.mem_singleton.mpr rfl
      | tick now' => cases same
      | flush now' => cases same
    | arrive k now sourceNode => trivial
  obtain ⟨good,same,fair⟩ := mesh_run card (Finset.mem_insert_self _ _) aggregated first links
    (goodMesh_new ids full typed) ok r
  have settled := caught.below
  rw [same] at settled
  have levels : level ((run (meshStep links hash) (newMesh ids configs replicas) es).replicas r) =
      level (mergeAll (replicas r) ds) := by
    refine eq_of_forall_ge_iff fun b => ?_
    have exact := settled_le_iff (b := b) ⟨rfl,rfl⟩ fair settled
    rw [← same,held_newMesh,addsBelow_iff] at exact
    rw [level_mergeAll_le_iff,(typed r).1]
    refine exact.trans (and_congr_right fun _ => ?_)
    constructor
    · intro all d listed
      obtain ⟨i,now,crdtType,sourceNode,member,leads⟩ := (upstream d).mp listed
      exact all i now crdtType d sourceNode member leads
    · intro all i now crdtType data sourceNode member leads
      exact all data ((upstream data).mpr ⟨i,now,crdtType,sourceNode,member,leads⟩)
  refine view_eq_of_level aggregated (good.replicas r) ⟨(typeOf_mergeAll _ _).trans (typed r).1,?_⟩ levels
  refine reads_mergeAll (typed r).2 ?_
  intro d listed
  obtain ⟨i,now,crdtType,sourceNode,member,_⟩ := (upstream d).mp listed
  rw [(typed r).1]
  exact (told i now crdtType d sourceNode member).2

/-- One relay before another, and that before a replica. -/
def chain : Bool → List (Bool ⊕ Unit)
  | false => [.inl true]
  | true => [.inr ()]

def countOne : Bytes := ((GCounter.new 1).increment 4).snapshot
def countTwo : Bytes := ((GCounter.new 2).increment 6).snapshot

/-- Both relays are handed a count, and everything is passed on. -/
def passedOn : List (MeshEvent Bool) :=
  [.call false (.receiveDelta 0 5 .gCounter countOne 1),.call false (.flush 1),.arrive 0 2 9,
    .call true (.receiveDelta 3 5 .gCounter countTwo 2),.call true (.flush 4),.arrive 1 5 8]

def chainEnd : Mesh Bool Unit :=
  run (meshStep chain 5) (newMesh (fun _ => 9) (fun _ => {}) (fun _ => .gCounter (.new 3))) passedOn

theorem mesh_transparent_chain :
    chainEnd.sent.length = 2 ∧
    view (chainEnd.replicas ()) = view (mergeAll (.gCounter (.new 3)) [countTwo,countOne]) := by
  have first : Leads (next chain) (.inl true) (.inr ()) := .single (List.mem_singleton.mpr rfl)
  have second : Leads (next chain) (.inl false) (.inr ()) := .head (List.mem_singleton.mpr rfl) first
  have sent : chainEnd.sent.length = 2 := by decide +kernel
  have arrived : chainEnd.arrived = [1,0] := by decide +kernel
  have queues : ∀ i, (chainEnd.relays i).forwardQueue = [] := by decide +kernel
  have batches : ∀ i, ((chainEnd.relays i).aggregator.buckets[(5 : UInt32)]?).isNone := by decide +kernel
  refine ⟨sent,mesh_transparent chain 5 .gCounter (.inr (.inl rfl)) (fun _ => 9) (fun _ => {}) (fun _ => rfl) (fun _ => [])
    rfl (fun _ => .gCounter (.new 3)) (fun _ => ⟨rfl,trivial⟩) passedOn ?_ (by decide +kernel) () ⟨?_,?_,?_⟩ _ ?_⟩
  · intro i now crdtType data sourceNode member
    simp [passedOn] at member
    rcases member with ⟨_,_,rfl,_⟩ | ⟨_,_,rfl,_⟩
    · exact ⟨rfl,fun register => by cases register⟩
    · exact ⟨rfl,fun register => by cases register⟩
  · intro i _ bucket found
    have none := batches i
    rw [show (chainEnd.relays i).aggregator.buckets[(5 : UInt32)]? = some bucket from found] at none
    cases none
  · intro i _ em member
    rw [show ((run (meshStep chain 5) _ passedOn).relays i).forwardQueue = [] from queues i] at member
    cases member
  · intro k s found away
    have early : k < 2 := sent ▸ (List.getElem?_eq_some_iff.mp found).1
    refine absurd ?_ away
    rw [show (run (meshStep chain 5) _ passedOn).arrived = [1,0] from arrived]
    simp
    omega
  · intro d
    constructor
    · intro member
      simp at member
      rcases member with rfl | rfl
      · exact ⟨true,3,.gCounter,2,by simp [passedOn],first⟩
      · exact ⟨false,0,.gCounter,1,by simp [passedOn],second⟩
    · rintro ⟨i,now,crdtType,sourceNode,member,_⟩
      simp [passedOn] at member
      rcases member with ⟨_,_,_,rfl,_⟩ | ⟨_,_,_,rfl,_⟩
      · simp
      · simp

end Rom.RelayMesh
