import Rom.Codec
import Rom.Registry
import Rom.Capability
import Rom.Routing
import Rom.Links
import Rom.Resolution
import Rom.Runs

/-!
A node that takes data from others (`peer.h`, `peer.cpp`). Each frame of a
received packet is first judged (`frameAction`: its length, its signature, the
access control and the token it carries) and then carried out (`perform`); the
frames of a packet are a run of such steps. `deltaAction_apply_iff` and
`snapshotAction_apply_iff` say which frames reach the registry, `frameStep_regions`
and `frameStep_tokens` what a step does to regions and tokens.
-/
namespace Rom
open Std Rom.Runs

/-- A node. The callback for failed signatures is kept as the calls made to it;
    `reports` says whether one is set. -/
structure Peer where
  nodeId : UInt16
  state : StateRegistry
  router : Router
  keys : KeyPair
  capStore : CapabilityStore
  peerKeys : ExtTreeMap UInt16 PublicKey := ∅
  accessControl : Bool := false
  reports : Bool := false
  sigFailures : List (UInt16 × UInt32) := []
  links : Links := {}
  /-- The filters of connections that do not get every delta. -/
  deltaFilters : ExtTreeMap UInt16 DeltaFilter := ∅
  /-- The id for the next connection that `poll` opens. -/
  nextAutoNodeId : UInt16 := 1000

namespace Peer

def new (nodeId : UInt16) (keys : KeyPair) : Peer :=
  { nodeId := nodeId
    state := .new nodeId
    router := { localNodeId := nodeId }
    keys := keys
    capStore := .new keys (UInt32.ofNat nodeId.toNat) }

def registerPeerKey (p : Peer) (nodeId : UInt16) (pk : PublicKey) : Peer :=
  { p with
    peerKeys := p.peerKeys.insert nodeId pk
    capStore := p.capStore.registerPeerKey (UInt32.ofNat nodeId.toNat) pk }

def setAccessControl (p : Peer) (enabled : Bool) : Peer := { p with accessControl := enabled }

def declare (P : Primitives) (p : Peer) (path : StatePath) (type : CrdtType) (rel : Reliability) : Peer × Bool :=
  let (state,ok) := p.state.declare P path type rel
  ({ p with state := state, router := if ok then p.router.announcePath (P.xxhash32 path.path) else p.router },ok)

/-- What a payload signs: all of it but the last 64 bytes. -/
def content (payload : Bytes) : Bytes := payload.take (payload.length - signatureSize)

/-- The signature at the end of a payload. -/
def trailer (payload : Bytes) : Signature := copyBytes 64 (payload.drop (payload.length - signatureSize))

def verifyFrameSignature (P : Primitives) (p : Peer) (payload : Bytes) (authorNodeId : UInt16) (baseSize : Nat) : Bool :=
  if payload.length < baseSize + signatureSize then false
  else
    match p.peerKeys[authorNodeId]? with
    | none => false
    | some pk => P.verify pk (trailer payload) (content payload)

/-- What a frame comes to. -/
inductive FrameAction where
  | ignore
  | reportFailure (author : UInt16) (pathHash : UInt32)
  | applyDelta (pathHash : UInt32) (data : Bytes)
  | applySnapshot (pathHash : UInt32) (data : Bytes)
  | storeToken (token : CapabilityToken)
  | revokeToken (tokenId : UInt32)
  | learnRoute (pathHash : UInt32) (viaNode : UInt16)
  deriving DecidableEq

/-- The bytes between the head of a payload and its signature. -/
def body (payload : Bytes) (baseSize : Nat) : Bytes :=
  (payload.drop baseSize).take (payload.length - signatureSize - baseSize)

/-- Access control refuses a declared region without a token to write it. -/
def refuses (p : Peer) (pathHash nowUs : UInt32) : Bool :=
  p.accessControl &&
    match p.state.get pathHash with
    | none => false
    | some region => (p.capStore.findCapability region.path .write nowUs).isNone

def deltaAction (P : Primitives) (p : Peer) (nowUs : UInt32) (payload : Bytes) : FrameAction :=
  if payload.length < StateDeltaFrame.minWireSize then
    if payload.length ≥ 4 then .reportFailure 0 (readU32 payload) else .ignore
  else
    let sdf := (StateDeltaFrame.decode payload).getD .zero
    if !p.verifyFrameSignature P payload sdf.authorNodeId StateDeltaFrame.baseWireSize then
      .reportFailure sdf.authorNodeId sdf.pathHash
    else if p.refuses sdf.pathHash nowUs then .ignore
    else .applyDelta sdf.pathHash (body payload StateDeltaFrame.baseWireSize)

/-- A snapshot is not subject to access control. -/
def snapshotAction (P : Primitives) (p : Peer) (payload : Bytes) : FrameAction :=
  if payload.length < StateSnapshotFrame.minWireSize then .ignore
  else
    let ssf := (StateSnapshotFrame.decode payload).getD .zero
    if !p.verifyFrameSignature P payload ssf.authorNodeId StateSnapshotFrame.baseWireSize then .ignore
    else .applySnapshot ssf.pathHash (body payload StateSnapshotFrame.baseWireSize)

/-- The branch of `process_data_frames` that a frame takes. -/
def frameAction (P : Primitives) (p : Peer) (nowUs : UInt32) (frame : Frame) : FrameAction :=
  match frame.type with
  | .stateDelta => p.deltaAction P nowUs frame.payload
  | .stateSnapshot => p.snapshotAction P frame.payload
  | .capabilityGrant =>
    match p.capStore.acceptGrant P frame.payload with
    | none => .ignore
    | some token => .storeToken token
  | .capabilityRevoke =>
    -- the issuer that the frame names is read and not used
    match CapabilityRevokeFrame.decode frame.payload with
    | none => .ignore
    | some crf => .revokeToken crf.tokenId
  | .routeAnnounce =>
    -- the node id is read with its low byte first
    if frame.payload.length ≥ 6 then
      .learnRoute (readU32 frame.payload)
        (UInt16.ofNat ((byteAt frame.payload 4).toNat + (byteAt frame.payload 5).toNat * 256))
    else .ignore
  | _ => .ignore

/-- The node and the number of changes counted so far. -/
structure Progress where
  peer : Peer
  changes : Nat := 0

def perform (mc : ManagedConnection) (st : Progress) : FrameAction → Progress
  | .ignore => st
  | .reportFailure author pathHash =>
    if st.peer.reports then
      { st with peer := { st.peer with sigFailures := st.peer.sigFailures ++ [(author,pathHash)] } }
    else st
  | .applyDelta pathHash data =>
    let (state,changed) := st.peer.state.applyDelta pathHash data
    let router := if changed then st.peer.router.onDeliverySuccess mc.remoteNodeId pathHash mc.conn.srttUs
      else st.peer.router
    ⟨{ st.peer with state := state, router := router },if changed then st.changes + 1 else st.changes⟩
  | .applySnapshot pathHash data =>
    let (state,changed) := st.peer.state.applySnapshot pathHash data
    ⟨{ st.peer with state := state },if changed then st.changes + 1 else st.changes⟩
  | .storeToken token => { st with peer := { st.peer with capStore := st.peer.capStore.store token } }
  | .revokeToken tokenId => { st with peer := { st.peer with capStore := (st.peer.capStore.revoke tokenId).1 } }
  | .learnRoute pathHash viaNode =>
    { st with peer := { st.peer with router := st.peer.router.learnRoute pathHash viaNode } }

/-- A frame and the time at which it is processed. -/
structure Arrival where
  frame : Frame
  now : Nat
  deriving DecidableEq, Repr

/-- What the frame comes to at this node. -/
def arrivalAction (P : Primitives) (mc : ManagedConnection) (st : Progress) (a : Arrival) : FrameAction :=
  st.peer.frameAction P (mc.conn.elapsedUs a.now) a.frame

def frameStep (P : Primitives) (mc : ManagedConnection) (st : Progress) (a : Arrival) : Progress :=
  perform mc st (arrivalAction P mc st a)

/-- The frames of a packet, each with the time of its turn. -/
def arrivals (d : PacketDecoder) (clock : Nat → Nat) : List Arrival :=
  d.frames.zipIdx.map (fun f => ⟨f.1,clock f.2⟩)

/-- The node after the frames of a packet, and the number of changes. -/
def processDataFrames (P : Primitives) (p : Peer) (mc : ManagedConnection) (clock : Nat → Nat) (d : PacketDecoder) :
    Peer × Nat :=
  let st := run (frameStep P mc) ⟨p,0⟩ (arrivals d clock)
  (st.peer,st.changes)

/-! ### What a frame has passed -/

theorem body_eq (payload : Bytes) (baseSize : Nat) : body payload baseSize = (content payload).drop baseSize := by
  rw [body,content,List.drop_take]

/-- A payload is what it signs and its signature. -/
theorem content_append_trailer {payload : Bytes} (long : signatureSize ≤ payload.length) :
    content payload ++ (trailer payload).toList = payload := by
  have rest : (payload.drop (payload.length - signatureSize)).length = 64 := by
    rw [List.length_drop,signatureSize] at *
    omega
  rw [content,trailer,toList_copyBytes rest.ge,List.take_of_length_le rest.le,List.take_append_drop]

theorem content_length (payload : Bytes) : (content payload).length = payload.length - signatureSize := by
  rw [content,List.length_take]
  omega

theorem content_signed (m : Bytes) (signature : Signature) : content (m ++ signature.toList) = m := by
  rw [content,List.length_append,Vector.length_toList,signatureSize,Nat.add_sub_cancel,List.take_left]

theorem trailer_signed (m : Bytes) (signature : Signature) : trailer (m ++ signature.toList) = signature := by
  rw [trailer,List.length_append,Vector.length_toList,signatureSize,Nat.add_sub_cancel,List.drop_left]
  simpa using copyBytes_append signature []

theorem verifyFrameSignature_iff {P : Primitives} {p : Peer} {payload : Bytes} {author : UInt16} {baseSize : Nat} :
    p.verifyFrameSignature P payload author baseSize = true ↔ baseSize + signatureSize ≤ payload.length ∧
      ∃ pk, p.peerKeys[author]? = some pk ∧ P.verify pk (trailer payload) (content payload) = true := by
  rw [verifyFrameSignature]
  by_cases short : payload.length < baseSize + signatureSize
  · simp [short]
  · rw [if_neg short]
    cases p.peerKeys[author]? with
    | none => simp
    | some pk => simp [Nat.not_lt.mp short]

theorem deltaAction_apply_iff {P : Primitives} {p : Peer} {nowUs : UInt32} {payload : Bytes} {pathHash : UInt32}
    {data : Bytes} :
    p.deltaAction P nowUs payload = .applyDelta pathHash data ↔
      pathHash = readU32 payload ∧ data = body payload StateDeltaFrame.baseWireSize ∧
        p.verifyFrameSignature P payload (readU16 (payload.drop 6)) StateDeltaFrame.baseWireSize = true ∧
        p.refuses pathHash nowUs = false := by
  rw [deltaAction]
  by_cases short : payload.length < StateDeltaFrame.minWireSize
  · have unsigned : p.verifyFrameSignature P payload (readU16 (payload.drop 6)) StateDeltaFrame.baseWireSize = false := by
      rw [verifyFrameSignature]
      exact if_pos short
    rw [if_pos short,unsigned]
    split <;> simp
  · have decoded : StateDeltaFrame.decode payload = some
        ⟨readU32 payload,.ofByte (byteAt payload 4),.ofByte (byteAt payload 5),readU16 (payload.drop 6)⟩ := by
      rw [StateDeltaFrame.decode,if_neg]
      rw [StateDeltaFrame.minWireSize] at short
      omega
    rw [if_neg short,decoded]
    simp only [Option.getD_some]
    cases p.verifyFrameSignature P payload (readU16 (payload.drop 6)) StateDeltaFrame.baseWireSize with
    | false => simp
    | true =>
      cases access : p.refuses (readU32 payload) nowUs with
      | true =>
        simp only [Bool.not_true,Bool.false_eq_true,if_false,if_true,reduceCtorEq,false_iff]
        rintro ⟨rfl,_,_,open_⟩
        rw [access] at open_
        cases open_
      | false =>
        simp only [Bool.not_true,Bool.false_eq_true,if_false,FrameAction.applyDelta.injEq,true_and]
        constructor
        · rintro ⟨rfl,rfl⟩
          exact ⟨rfl,rfl,access⟩
        · rintro ⟨rfl,rfl,_⟩
          exact ⟨rfl,rfl⟩

theorem snapshotAction_apply_iff {P : Primitives} {p : Peer} {payload : Bytes} {pathHash : UInt32} {data : Bytes} :
    p.snapshotAction P payload = .applySnapshot pathHash data ↔
      pathHash = readU32 payload ∧ data = body payload StateSnapshotFrame.baseWireSize ∧
        p.verifyFrameSignature P payload (readU16 (payload.drop 5)) StateSnapshotFrame.baseWireSize = true := by
  rw [snapshotAction]
  by_cases short : payload.length < StateSnapshotFrame.minWireSize
  · have unsigned :
        p.verifyFrameSignature P payload (readU16 (payload.drop 5)) StateSnapshotFrame.baseWireSize = false := by
      rw [verifyFrameSignature]
      exact if_pos short
    rw [if_pos short,unsigned]
    simp
  · have decoded : StateSnapshotFrame.decode payload = some
        ⟨readU32 payload,.ofByte (byteAt payload 4),readU16 (payload.drop 5)⟩ := by
      rw [StateSnapshotFrame.decode,if_neg]
      rw [StateSnapshotFrame.minWireSize] at short
      omega
    rw [if_neg short,decoded]
    simp only [Option.getD_some]
    cases p.verifyFrameSignature P payload (readU16 (payload.drop 5)) StateSnapshotFrame.baseWireSize with
    | false => simp
    | true =>
      simp only [Bool.not_true,Bool.false_eq_true,if_false,FrameAction.applySnapshot.injEq,and_true]
      exact and_congr eq_comm eq_comm

theorem deltaAction_range (P : Primitives) (p : Peer) (nowUs : UInt32) (payload : Bytes) :
    (∃ pathHash data, p.deltaAction P nowUs payload = .applyDelta pathHash data) ∨
      (∃ author pathHash, p.deltaAction P nowUs payload = .reportFailure author pathHash) ∨
      p.deltaAction P nowUs payload = .ignore := by
  rw [deltaAction]
  split
  · split
    · exact .inr (.inl ⟨_,_,rfl⟩)
    · exact .inr (.inr rfl)
  · dsimp only
    split
    · exact .inr (.inl ⟨_,_,rfl⟩)
    · split
      · exact .inr (.inr rfl)
      · exact .inl ⟨_,_,rfl⟩

theorem snapshotAction_range (P : Primitives) (p : Peer) (payload : Bytes) :
    (∃ pathHash data, p.snapshotAction P payload = .applySnapshot pathHash data) ∨
      p.snapshotAction P payload = .ignore := by
  rw [snapshotAction]
  split
  · exact .inr rfl
  · dsimp only
    split
    · exact .inr rfl
    · exact .inl ⟨_,_,rfl⟩

/-- What a frame must be to reach the registry or the store. -/
def Reaches (P : Primitives) (p : Peer) (nowUs : UInt32) (frame : Frame) : FrameAction → Prop
  | .applyDelta pathHash data =>
    frame.type = .stateDelta ∧ p.deltaAction P nowUs frame.payload = .applyDelta pathHash data
  | .applySnapshot pathHash data =>
    frame.type = .stateSnapshot ∧ p.snapshotAction P frame.payload = .applySnapshot pathHash data
  | .storeToken token => frame.type = .capabilityGrant ∧ p.capStore.acceptGrant P frame.payload = some token
  | .revokeToken tokenId => frame.type = .capabilityRevoke ∧
      ∃ crf, CapabilityRevokeFrame.decode frame.payload = some crf ∧ crf.tokenId = tokenId
  | _ => True

theorem frameAction_reaches (P : Primitives) (p : Peer) (nowUs : UInt32) (frame : Frame) :
    Reaches P p nowUs frame (p.frameAction P nowUs frame) := by
  rw [frameAction]
  split
  · next type =>
    rcases deltaAction_range P p nowUs frame.payload with ⟨_,_,same⟩ | ⟨_,_,same⟩ | same
    · rw [same]
      exact ⟨type,same⟩
    · rw [same]
      trivial
    · rw [same]
      trivial
  · next type =>
    rcases snapshotAction_range P p frame.payload with ⟨_,_,same⟩ | same
    · rw [same]
      exact ⟨type,same⟩
    · rw [same]
      trivial
  · next type =>
    split
    · trivial
    · next token accepted => exact ⟨type,accepted⟩
  · next type =>
    split
    · trivial
    · next crf decoded => exact ⟨type,crf,decoded,rfl⟩
  · split <;> trivial
  · trivial

theorem frameAction_eq_reaches {P : Primitives} {p : Peer} {nowUs : UInt32} {frame : Frame} {action : FrameAction}
    (same : p.frameAction P nowUs frame = action) : Reaches P p nowUs frame action :=
  same ▸ frameAction_reaches P p nowUs frame

/-! ### What a step does -/

/-- Only a delta or a snapshot changes a region, and only its own. -/
theorem frameStep_regions (P : Primitives) (mc : ManagedConnection) (st : Progress) (a : Arrival) (hash : UInt32) :
    (frameStep P mc st a).peer.state.regions[hash]? = match arrivalAction P mc st a with
      | .applyDelta pathHash data | .applySnapshot pathHash data =>
        if pathHash = hash then
          st.peer.state.regions[hash]?.map (fun region => { region with crdt := (region.crdt.merge data).1 })
        else st.peer.state.regions[hash]?
      | _ => st.peer.state.regions[hash]? := by
  rw [frameStep]
  cases arrivalAction P mc st a with
  | applyDelta pathHash data => exact StateRegistry.applyDelta_regions _ _ _ _
  | applySnapshot pathHash data => exact StateRegistry.applyDelta_regions _ _ _ _
  | reportFailure author pathHash =>
    simp only [perform]
    split <;> rfl
  | _ => rfl

/-- A region is as it was, or a frame with data for it was merged into it. -/
theorem region_step (P : Primitives) (mc : ManagedConnection) (st : Progress) (a : Arrival) (hash : UInt32) :
    (frameStep P mc st a).peer.state.regions[hash]? = st.peer.state.regions[hash]? ∨
      ∃ (region : StateRegion) (data : Bytes), st.peer.state.regions[hash]? = some region ∧
        (arrivalAction P mc st a = .applyDelta hash data ∨ arrivalAction P mc st a = .applySnapshot hash data) ∧
        (frameStep P mc st a).peer.state.regions[hash]? = some { region with crdt := (region.crdt.merge data).1 } := by
  have regions := frameStep_regions P mc st a hash
  by_cases reached : ∃ data,
      arrivalAction P mc st a = .applyDelta hash data ∨ arrivalAction P mc st a = .applySnapshot hash data
  · obtain ⟨data,action⟩ := reached
    have merged : (frameStep P mc st a).peer.state.regions[hash]? =
        st.peer.state.regions[hash]?.map (fun region => { region with crdt := (region.crdt.merge data).1 }) := by
      rcases action with delta | snapshot
      · simpa only [delta,if_true] using regions
      · simpa only [snapshot,if_true] using regions
    cases found : st.peer.state.regions[hash]? with
    | none =>
      rw [found] at merged
      exact .inl merged
    | some region =>
      rw [found] at merged
      exact .inr ⟨region,data,rfl,action,merged⟩
  · refine .inl (regions.trans ?_)
    cases action : arrivalAction P mc st a with
    | applyDelta pathHash data => exact if_neg (fun own : pathHash = hash => reached ⟨data,.inl (own ▸ action)⟩)
    | applySnapshot pathHash data => exact if_neg (fun own : pathHash = hash => reached ⟨data,.inr (own ▸ action)⟩)
    | _ => rfl

theorem frameStep_tokens (P : Primitives) (mc : ManagedConnection) (st : Progress) (a : Arrival) :
    (frameStep P mc st a).peer.capStore.tokens = match arrivalAction P mc st a with
      | .storeToken token => st.peer.capStore.tokens.insert token.tokenId token
      | .revokeToken tokenId => st.peer.capStore.tokens.erase tokenId
      | _ => st.peer.capStore.tokens := by
  rw [frameStep]
  cases arrivalAction P mc st a with
  | reportFailure author pathHash =>
    simp only [perform]
    split <;> rfl
  | _ => rfl

/-- Keys and access control are not for packets to change. -/
theorem frameStep_settings (P : Primitives) (mc : ManagedConnection) (st : Progress) (a : Arrival) :
    (frameStep P mc st a).peer.peerKeys = st.peer.peerKeys ∧
      (frameStep P mc st a).peer.accessControl = st.peer.accessControl := by
  rw [frameStep]
  cases arrivalAction P mc st a with
  | reportFailure author pathHash =>
    simp only [perform]
    split <;> exact ⟨rfl,rfl⟩
  | _ => exact ⟨rfl,rfl⟩

end Peer
end Rom
