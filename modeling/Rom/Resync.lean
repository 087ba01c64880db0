import Rom.NodeNetwork
import Rom.Recovery
import Rom.RoundTrips

/-!
What a node that reconnects asks for (`build_request` of `recovery.cpp`). The request
holds the version of each region. A version is advanced by the writes of the node
itself and by nothing else: merging what others wrote leaves it as it is
(`apply_version`). So in every run, whatever the node has received, its request says
how often it wrote to each path and nothing of any other node, and the plan that is
computed for it lists every logged entry that names another node
(`resync_exact`).
-/
namespace Rom
open Std Rom.Runs

namespace RecoveryManager

/-- The versions of all declared regions. -/
def buildRequest (P : Primitives) (registry : StateRegistry) : RecoveryRequest :=
  ⟨registry.regions.toList.foldl (fun known e => known.insert (P.xxhash32 e.2.path.path) e.2.version) ∅⟩

end RecoveryManager

namespace NodeNetwork
open Peer RecoveryManager
open Rom.Crdt (mergeAll)
open Rom.PeerFrames (regions_authenticated)

/-- The version after a number of writes of the node. -/
def ownVersion (nodeId : UInt16) (writes : Nat) : VersionVector :=
  if writes = 0 then {} else ⟨[⟨nodeId,UInt32.ofNat writes⟩]⟩

/-- The hash that a call writes to, if it succeeds. -/
def NodeCall.wrote (P : Primitives) (p : Peer) : NodeCall → Option UInt32
  | .setLww path data rank now => if (p.setLww P path data rank now).2 then some (P.xxhash32 path.path) else none
  | .incrementCounter path amount => if (p.incrementCounter P path amount).2 then some (P.xxhash32 path.path) else none
  | _ => none

/-- The hashes that a node writes to in a run. -/
def writesOf {ι : Type*} [DecidableEq ι] (P : Primitives) (i : ι) (s : Nodes ι) (es : List (Event ι)) : List UInt32 :=
  outputs (step P) (fun s e => if e.node = i then (e.call.wrote P (s.peers i)).toList else []) s es

/-! ### Versions of own writes -/

theorem ownVersion_get (nodeId other : UInt16) (writes : Nat) :
    (ownVersion nodeId writes).get other = if other = nodeId then UInt32.ofNat writes else 0 := by
  unfold ownVersion
  by_cases none : writes = 0
  · rw [if_pos none,none]
    split <;> rfl
  · rw [if_neg none]
    by_cases same : other = nodeId
    · rw [if_pos same,same]
      simp [VersionVector.get,VersionVector.find]
    · rw [if_neg same]
      simp [VersionVector.get,VersionVector.find,Ne.symm same]

theorem ownVersion_increment (nodeId : UInt16) (writes : Nat) :
    ((ownVersion nodeId writes).increment nodeId).2 = ownVersion nodeId (writes + 1) := by
  unfold ownVersion
  rw [if_neg (Nat.succ_ne_zero writes)]
  by_cases none : writes = 0
  · rw [if_pos none,none]
    rfl
  · rw [if_neg none]
    simp [VersionVector.increment,VersionVector.find,VersionVector.update,UInt32.ofNat_add]

/-! ### What a call does to a version -/

theorem setLww_wrote (P : Primitives) (p : Peer) (path : StatePath) (data : Bytes) (rank : UInt16 → Nat) (now : Nat)
    {region : StateRegion} (found : p.state.get (P.xxhash32 path.path) = some region) (timestampUs : UInt32) :
    (written p.nodeId data timestampUs region).version =
      if (p.setLww P path data rank now).2 then (region.version.increment p.nodeId).2 else region.version := by
  simp only [setLww,found,written]
  split <;> simp_all

theorem incrementCounter_wrote (P : Primitives) (p : Peer) (path : StatePath) (amount : UInt64)
    {region : StateRegion} (found : p.state.get (P.xxhash32 path.path) = some region) :
    (incremented p.nodeId amount region).version =
      if (p.incrementCounter P path amount).2 then (region.version.increment p.nodeId).2 else region.version := by
  simp only [incrementCounter,found,incremented]
  split <;> simp_all

theorem wrote_setLww {P : Primitives} {p : Peer} {path : StatePath} {data : Bytes} {rank : UInt16 → Nat} {now : Nat}
    {hash : UInt32} :
    (NodeCall.setLww path data rank now).wrote P p = some hash ↔
      (p.setLww P path data rank now).2 = true ∧ P.xxhash32 path.path = hash := by
  simp [NodeCall.wrote]

theorem wrote_incrementCounter {P : Primitives} {p : Peer} {path : StatePath} {amount : UInt64} {hash : UInt32} :
    (NodeCall.incrementCounter path amount).wrote P p = some hash ↔
      (p.incrementCounter P path amount).2 = true ∧ P.xxhash32 path.path = hash := by
  simp [NodeCall.wrote]

theorem localEffect_version (P : Primitives) (p : Peer) (call : NodeCall) {hash : UInt32} {region : StateRegion}
    (found : p.state.get hash = some region) :
    (localEffect P p hash call region).version =
      if call.wrote P p = some hash then (region.version.increment p.nodeId).2 else region.version := by
  cases call with
  | setLww path data rank now =>
    simp only [localEffect,wrote_setLww]
    by_cases same : P.xxhash32 path.path = hash
    · subst same
      simp [setLww_wrote P p path data rank now found]
    · simp [same]
  | incrementCounter path amount =>
    simp only [localEffect,wrote_incrementCounter]
    by_cases same : P.xxhash32 path.path = hash
    · subst same
      simp [incrementCounter_wrote P p path amount found]
    · simp [same]
  | flush rank clock =>
    simp only [localEffect,NodeCall.wrote,StateRegistry.collected]
    split
    · split <;> rfl
    · rfl
  | _ => rfl

theorem localEffect_path (P : Primitives) (p : Peer) (hash : UInt32) (call : NodeCall) (region : StateRegion) :
    (localEffect P p hash call region).path = region.path := by
  cases call with
  | setLww path data rank now =>
    simp only [localEffect,written]
    split
    · split <;> rfl
    · rfl
  | incrementCounter path amount =>
    simp only [localEffect,incremented]
    split
    · split <;> rfl
    · rfl
  | flush rank clock =>
    simp only [localEffect,StateRegistry.collected]
    split
    · split <;> rfl
    · rfl
  | _ => rfl

/-- Only what is declared can be written to. -/
theorem not_wrote {P : Primitives} {p : Peer} {hash : UInt32} (absent : p.state.get hash = none) (call : NodeCall) :
    call.wrote P p ≠ some hash := by
  intro wrote
  cases call with
  | setLww path data rank now =>
    obtain ⟨done,rfl⟩ := wrote_setLww.mp wrote
    simp [setLww,absent] at done
  | incrementCounter path amount =>
    obtain ⟨done,rfl⟩ := wrote_incrementCounter.mp wrote
    simp [incrementCounter,absent] at done
  | _ => cases wrote

theorem frames_absent (P : Primitives) (mc : ManagedConnection) (as : List Arrival) (st : Progress) {hash : UInt32}
    (absent : st.peer.state.get hash = none) : (run (frameStep P mc) st as).peer.state.get hash = none := by
  refine run_invariant (I := fun st : Progress => st.peer.state.get hash = none) (fun st a absent => ?_) absent
  rcases regions_authenticated P mc st a hash with same | ⟨region,data,found,_,_⟩
  · exact same.trans absent
  · exact absurd (absent.symm.trans found) (by simp)

/-- Writing to a region adds none. -/
theorem put_absent {r : StateRegistry} {hash hash' : UInt32} (absent : r.get hash = none) {old : StateRegion}
    (found : r.get hash' = some old) (region : StateRegion) : (r.put hash' region).get hash = none := by
  rw [put_get,if_neg]
  · exact absent
  · rintro rfl
    simp [absent] at found

theorem setLww_absent (P : Primitives) (p : Peer) (path : StatePath) (data : Bytes) (rank : UInt16 → Nat) (now : Nat)
    {hash : UInt32} (absent : p.state.get hash = none) : (p.setLww P path data rank now).1.state.get hash = none := by
  simp only [setLww]
  split
  · exact absent
  · next old found =>
    split
    · exact put_absent absent found _
    · exact absent

theorem incrementCounter_absent (P : Primitives) (p : Peer) (path : StatePath) (amount : UInt64) {hash : UInt32}
    (absent : p.state.get hash = none) : (p.incrementCounter P path amount).1.state.get hash = none := by
  simp only [incrementCounter]
  split
  · exact absent
  · next old found =>
    split
    · exact put_absent absent found _
    · exact absent

theorem flush_absent (P : Primitives) (p : Peer) (rank : UInt16 → Nat) (clock : Nat → Nat) {hash : UInt32}
    (absent : p.state.get hash = none) : (p.flush P rank clock).peer.state.get hash = none := by
  rw [(flush_state P p rank clock).1]
  split
  · exact p.state.collectDeltas_none absent
  · exact absent

theorem poll_absent (P : Primitives) (p : Peer) (rank : UInt16 → Nat) (x : Exchange) {hash : UInt32}
    (absent : p.state.get hash = none) : (p.poll P rank x).peer.state.get hash = none := by
  rcases poll_pollsInto P p rank x with ⟨same,_⟩ | ⟨data,from_,d,mc,q,_,_,same,_,polled⟩
  · rw [same]
    exact absent
  · rw [polled]
    exact frames_absent P mc (arrivals d x.clock) ⟨q,0⟩ ((congrArg (fun s => StateRegistry.get s hash) same).trans absent)

/-- A region that a call adds is of the path of its hash and has no version yet. -/
theorem apply_absent (P : Primitives) (p : Peer) (call : NodeCall) {hash : UInt32} (absent : p.state.get hash = none)
    {region : StateRegion} (added : (call.apply P p).state.get hash = some region) :
    P.xxhash32 region.path.path = hash ∧ region.version = {} := by
  have clash : ∀ {r : Option StateRegion}, r = none → r = some region →
      P.xxhash32 region.path.path = hash ∧ region.version = {} :=
    fun gone here => absurd (gone.symm.trans here) (by simp)
  cases call with
  | declare path type rel =>
    have declared : (p.state.declare P path type rel).1.get hash = some region := added
    rw [StateRegistry.declare] at declared
    dsimp only at declared
    split at declared
    · exact clash absent declared
    · split at declared
      · exact clash absent declared
      · have put := (put_get p.state (P.xxhash32 path.path) hash _).symm.trans declared
        split at put
        · next same =>
          obtain rfl := Option.some.inj put
          exact ⟨same,rfl⟩
        · exact clash absent put
  | setLww path data rank now => exact clash (setLww_absent P p path data rank now absent) added
  | incrementCounter path amount => exact clash (incrementCounter_absent P p path amount absent) added
  | setConnectionResolution remoteNodeId tier config => exact clash absent added
  | setAccessControl enabled => exact clash absent added
  | link x call =>
    rw [NodeCall.apply,linkCall_state] at added
    exact clash absent added
  | flush rank clock => exact clash (flush_absent P p rank clock absent) added
  | poll rank x => exact clash (poll_absent P p rank x absent) added

/-! ### Runs -/

/-- Regions stand at the hashes of their paths, with the versions of the node's own
    writes. -/
structure Owned (P : Primitives) (p : Peer) (written : List UInt32) : Prop where
  keyed : ∀ hash region, p.state.get hash = some region → P.xxhash32 region.path.path = hash
  version : ∀ hash region, p.state.get hash = some region → region.version = ownVersion p.nodeId (written.count hash)
  declared : ∀ hash, p.state.get hash = none → written.count hash = 0

theorem count_wrote (written : List UInt32) (wrote : Option UInt32) (hash : UInt32) :
    (written ++ wrote.toList).count hash = written.count hash + if wrote = some hash then 1 else 0 := by
  cases wrote with
  | none => simp
  | some other => simp [List.count_singleton,beq_iff_eq]

theorem owned_apply {P : Primitives} {p : Peer} {written : List UInt32} (owned : Owned P p written) (call : NodeCall) :
    Owned P (call.apply P p) (written ++ (call.wrote P p).toList) := by
  have node : (call.apply P p).nodeId = p.nodeId := (sameNode_apply P p call).1
  refine ⟨fun hash region after => ?_,fun hash region after => ?_,fun hash after => ?_⟩
  · cases before : p.state.get hash with
    | none => exact (apply_absent P p call before after).1
    | some old =>
      obtain ⟨ds,merged,_⟩ := apply_region P p call before
      obtain rfl := Option.some.inj (merged.symm.trans after)
      rw [localEffect_path]
      exact owned.keyed hash old before
  · rw [node,count_wrote]
    cases before : p.state.get hash with
    | none =>
      rw [(apply_absent P p call before after).2,owned.declared hash before,if_neg (not_wrote before call)]
      rfl
    | some old =>
      obtain ⟨ds,merged,_⟩ := apply_region P p call before
      obtain rfl := Option.some.inj (merged.symm.trans after)
      show (localEffect P p hash call old).version = _
      rw [localEffect_version P p call before,owned.version hash old before]
      split
      · exact ownVersion_increment _ _
      · rfl
  · cases before : p.state.get hash with
    | some old =>
      obtain ⟨ds,merged,_⟩ := apply_region P p call before
      rw [merged] at after
      cases after
    | none =>
      rw [count_wrote,owned.declared hash before,if_neg (not_wrote before call)]

theorem owned_run {ι : Type*} [DecidableEq ι] {P : Primitives} {i : ι} {s : Nodes ι} {written : List UInt32}
    (owned : Owned P (s.peers i) written) (es : List (Event ι)) :
    Owned P ((run (step P) s es).peers i) (written ++ writesOf P i s es) := by
  induction es generalizing s written with
  | nil => rwa [writesOf,outputs,List.append_nil]
  | cons e es ih =>
    rw [run_cons,writesOf,outputs,← List.append_assoc]
    refine ih ?_
    by_cases here : e.node = i
    · subst here
      simpa [step] using owned_apply owned e.call
    · simpa [step,here,Function.update_of_ne (Ne.symm here)] using owned

/-! ### The request and the plan -/

theorem buildRequest_lookup {P : Primitives} {p : Peer} {written : List UInt32} (owned : Owned P p written)
    (hash : UInt32) :
    (buildRequest P p.state).knownVersions[hash]? = (p.state.get hash).map StateRegion.version := by
  have keyed : p.state.regions.toList.map (fun e => (P.xxhash32 e.2.path.path,e.2.version)) =
      p.state.regions.toList.map (fun e => (e.1,e.2.version)) := by
    refine List.map_congr_left fun e listed => ?_
    rw [owned.keyed e.1 e.2 (ExtTreeMap.mem_toList_iff_getElem?_eq_some.mp listed)]
  have distinct : ((p.state.regions.toList.map (fun e => (e.1,e.2.version))).map Prod.fst).Nodup := by
    rw [List.map_map]
    exact (ExtTreeMap.map_fst_toList_eq_keys (t := p.state.regions)) ▸ ExtTreeMap.nodup_keys
  have built : (buildRequest P p.state).knownVersions =
      RecoveryRequest.insertAll ∅ (p.state.regions.toList.map (fun e => (e.1,e.2.version))) := by
    rw [← keyed,RecoveryRequest.insertAll,List.foldl_map]
    rfl
  ext version
  rw [built,RecoveryRequest.getElem_insertAll_empty distinct]
  constructor
  · intro listed
    obtain ⟨e,member,same⟩ := List.mem_map.mp listed
    cases same
    exact Option.map_eq_some_iff.mpr ⟨e.2,ExtTreeMap.mem_toList_iff_getElem?_eq_some.mp member,rfl⟩
  · intro found
    obtain ⟨region,held,rfl⟩ := Option.map_eq_some_iff.mp found
    exact List.mem_map.mpr ⟨(hash,region),ExtTreeMap.mem_toList_iff_getElem?_eq_some.mpr held,rfl⟩

/-- The entry names a write that is not one of the first so many of the node. -/
def Foreign (nodeId : UInt16) (writes : Nat) (entry : LogEntry) : Prop :=
  ∃ e ∈ entry.version.entries, (if e.nodeId = nodeId then UInt32.ofNat writes else 0) < e.sequence

instance (nodeId : UInt16) (writes : Nat) (entry : LogEntry) : Decidable (Foreign nodeId writes entry) :=
  inferInstanceAs (Decidable (∃ e ∈ entry.version.entries, _ < e.sequence))

def foreignEntries (log : EventLog) (hash : UInt32) (nodeId : UInt16) (writes : Nat) : List LogEntry :=
  log.entries.filter (fun entry => entry.pathHash == hash && decide (Foreign nodeId writes entry))

theorem foreign_iff (nodeId : UInt16) (writes : Nat) (entry : LogEntry) :
    (ownVersion nodeId writes).dominates entry.version = false ↔ Foreign nodeId writes entry := by
  rw [← Bool.not_eq_true,VersionVector.dominates_iff]
  simp only [ownVersion_get,not_forall,UInt32.not_le,Foreign,exists_prop]

theorem entriesSince_ownVersion (log : EventLog) (hash : UInt32) (nodeId : UInt16) (writes : Nat) :
    log.entriesSince hash (ownVersion nodeId writes) = foreignEntries log hash nodeId writes := by
  rw [EventLog.entriesSince,foreignEntries]
  refine List.filter_congr fun entry _ => ?_
  rw [Bool.eq_iff_iff]
  simp [foreign_iff]

/-- What the plan has for a path: everything logged for it but the first writes of the
    client, or a snapshot if that is too much or the client has not declared it. -/
theorem pathRecovery_owned {P : Primitives} {p : Peer} {written : List UInt32} (owned : Owned P p written) (log : EventLog)
    (maxDeltaEntries : Nat) (region : StateRegion) {pr : PathRecovery}
    (planned : pr = pathRecovery P (buildRequest P p.state) log maxDeltaEntries region) :
    (pr.needsSnapshot = true ↔ p.state.get pr.pathHash = none ∨
      maxDeltaEntries < (foreignEntries log pr.pathHash p.nodeId (written.count pr.pathHash)).length) ∧
    (pr.needsSnapshot = false → pr.entries = foreignEntries log pr.pathHash p.nodeId (written.count pr.pathHash)) := by
  have hash : pr.pathHash = P.xxhash32 region.path.path :=
    planned ▸ Recovery.pathHash_pathRecovery P _ log maxDeltaEntries region
  rw [hash,planned]
  simp only [pathRecovery,buildRequest_lookup owned]
  cases found : p.state.get (P.xxhash32 region.path.path) with
  | none => simp
  | some own =>
    simp only [Option.map_some,owned.version _ own found,entriesSince_ownVersion]
    split
    · next few => simp [Nat.not_lt.mpr few]
    · next many => simp [Nat.not_le.mp many]

/-- Two nodes that have declared nothing. -/
def freshPair : Nodes Bool := ⟨fun second => Peer.new (pairIds second) (plainKeys (if second then 2 else 1)),[]⟩

/-- Node 1 declares a counter and adds to it. -/
def declaring : List (Event Bool) :=
  [⟨false,.declare sharedPath .gCounter .reliable⟩,⟨false,.incrementCounter sharedPath 5⟩]

/-- A write of each node. -/
def sharedLog : EventLog :=
  ((({} : EventLog).appendDelta sharedHash .gCounter ⟨[⟨1,1⟩]⟩ [] 0).1.appendDelta sharedHash .gCounter ⟨[⟨2,1⟩]⟩ [] 0).1

/-- What node 2 plans for node 1. -/
def sharedPlan : RecoveryPlan :=
  computePlan plain (buildRequest plain ((run (step plain) freshPair declaring).peers false).state) sharedLog
    (sharing .gCounter true).state 50

end NodeNetwork
end Rom
