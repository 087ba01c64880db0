import Rom.Decoders
import Rom.Peer

/-!
The loops over the frames of a received packet, with their reads checked: that of
`handshake::process_packet` and that of `Peer::process_data_frames`, down to the
merges they call. After a successful `parse` the buffer holds what the header
announces (`whole_parse`), each frame lies inside it (`nextFrame_eq`), and each
round of a loop takes a frame (`framesLoop_eq`). `decoders_stay_inside` says of
all decoders that they never read outside their buffer and come to an end.
-/
namespace Rom.FrameLoops
open Std Rom.Checked Rom.Decoders Rom.Runs

/-! ### Frames -/

def nextFrame (d : PacketDecoder) : Outcome (Option (Frame × PacketDecoder)) := do
  let payloadEnd := packetHeaderSize + d.header.payloadLength.toNat
  let absPos := packetHeaderSize + d.frameCursor
  if absPos + frameHeaderSize > payloadEnd then pure none
  else
    let type ← readAt d.bytes absPos
    let length ← u16At d.bytes (absPos + 1)
    if absPos + frameHeaderSize + length.toNat > payloadEnd then pure none
    else
      let payload ← slice d.bytes (absPos + frameHeaderSize) length.toNat
      pure (some (⟨.ofByte type,payload⟩,{ d with frameCursor := d.frameCursor + (frameHeaderSize + length.toNat) }))

/-- A round of a loop over the frames: it handles one or leaves. -/
def frameRound {σ β : Type} (handle : σ → Frame → Outcome (Round σ β)) (finish : σ → β) (x : PacketDecoder × σ) :
    Outcome (Round (PacketDecoder × σ) β) := do
  match ← nextFrame x.1 with
  | none => pure (.leave (finish x.2))
  | some (frame,d) =>
    match ← handle x.2 frame with
    | .next s => pure (.next (d,s))
    | .leave b => pure (.leave b)

def framesLoop {σ β : Type} (fuel : ℕ) (handle : σ → Frame → Outcome (Round σ β)) (finish : σ → β) (d : PacketDecoder)
    (s : σ) : Outcome β :=
  whileLoop fuel (frameRound handle finish) (d,s)

/-- What such a loop does with frames that are at hand. -/
def overFrames {σ β : Type} (handle : σ → Frame → Round σ β) (finish : σ → β) : List Frame → σ → β
  | [], s => finish s
  | frame :: frames, s =>
    match handle s frame with
    | .next s => overFrames handle finish frames s
    | .leave b => b

/-- The buffer holds what the header announces. -/
def Whole (d : PacketDecoder) : Prop := packetHeaderSize + d.header.payloadLength.toNat ≤ d.bytes.length

theorem whole_parse {d d' : PacketDecoder} {data : Bytes} (parsed : d.parse data = (d',true)) : Whole d' := by
  rcases PacketDecoder.parse_cases data with refused | ⟨header,room,taken⟩
  · obtain ⟨header,kept⟩ := refused d
    cases kept.symm.trans parsed
  · cases (taken d).symm.trans parsed
    exact room

theorem nextFrame_eq {d : PacketDecoder} (whole : Whole d) : nextFrame d = .done d.nextFrame := by
  rw [Whole] at whole
  rw [nextFrame,PacketDecoder.nextFrame]
  dsimp only
  split
  · rfl
  · next head =>
    rw [frameHeaderSize] at head
    rw [byteAt_inside (by omega),u16At_inside (by omega)]
    simp only [Outcome.done_bind]
    split
    · rfl
    · next room =>
      have first : byteAt (d.bytes.drop (packetHeaderSize + d.frameCursor)) 0 =
          byteAt d.bytes (packetHeaderSize + d.frameCursor) := by
        simp [byteAt]
      rw [slice_inside (by omega),first]
      rfl

theorem whole_next {d d' : PacketDecoder} {frame : Frame} (whole : Whole d) (next : d.nextFrame = some (frame,d')) :
    Whole d' := by
  obtain ⟨_,_,rfl⟩ := PacketDecoder.nextFrame_eq_some next
  exact whole

section
variable {σ β : Type} {check : σ → Frame → Outcome (Round σ β)} {handle : σ → Frame → Round σ β} {finish : σ → β}

theorem frameRound_none {d : PacketDecoder} (whole : Whole d) (none : d.nextFrame = none) (s : σ) :
    frameRound check finish (d,s) = .done (.leave (finish s)) := by
  rw [frameRound,nextFrame_eq whole,none]
  rfl

theorem frameRound_some (same : ∀ s frame, check s frame = .done (handle s frame)) {d d' : PacketDecoder} {frame : Frame}
    (whole : Whole d) (next : d.nextFrame = some (frame,d')) (s : σ) :
    frameRound check finish (d,s) = .done (match handle s frame with
      | .next s => .next (d',s)
      | .leave b => .leave b) := by
  rw [frameRound,nextFrame_eq whole,next]
  simp only [Outcome.done_bind,same]
  cases handle s frame <;> rfl

/-- With more rounds than bytes, the loop handles the frames of the packet. -/
theorem framesLoop_eq (same : ∀ s frame, check s frame = .done (handle s frame)) (fuel : ℕ) {d : PacketDecoder}
    (whole : Whole d) (enough : d.header.payloadLength.toNat - d.frameCursor < fuel) (s : σ) :
    framesLoop fuel check finish d s = .done (overFrames handle finish d.frames s) := by
  induction fuel generalizing d s with
  | zero => omega
  | succ fuel ih =>
    rw [framesLoop,whileLoop,PacketDecoder.frames_eq]
    cases next : d.nextFrame with
    | none =>
      rw [frameRound_none whole next]
      rfl
    | some r =>
      obtain ⟨header,later,within⟩ := PacketDecoder.nextFrame_advances next
      rw [frameRound_some same whole next,overFrames]
      cases handle s r.1 with
      | leave b => rfl
      | next s' =>
        refine ih (whole_next whole next) ?_ s'
        rw [header]
        omega

end

/-! ### Handshakes -/

def connectDecode (buf : Bytes) : Outcome (Option ConnectFrame) :=
  if buf.length < ConnectFrame.wireSize then pure none
  else do
    let magic ← u32At buf 0
    let version ← readAt buf 4
    let maxFrameSize ← u16At buf 5
    pure (some ⟨magic,version,maxFrameSize⟩)

def acceptDecode (buf : Bytes) : Outcome (Option AcceptFrame) :=
  if buf.length < AcceptFrame.wireSize then pure none
  else do
    let assignedConnId ← u16At buf 0
    let serverTimestampUs ← u32At buf 2
    pure (some ⟨assignedConnId,serverTimestampUs⟩)

def closeDecode (buf : Bytes) : Outcome (Option CloseFrame) :=
  if buf.length < CloseFrame.wireSize then pure none
  else do
    let reason ← readAt buf 0
    pure (some ⟨.ofByte reason⟩)

def pingDecode (buf : Bytes) : Outcome (Option PingFrame) :=
  if buf.length < PingFrame.wireSize then pure none
  else do
    let pingId ← u32At buf 0
    let timestampUs ← u32At buf 4
    pure (some ⟨pingId,timestampUs⟩)

/-- What a frame comes to, or that the loop goes on. -/
def handshakeFrame (conn : Connection) (frame : Frame) :
    Outcome (Round Unit (Handshake.HandshakeEvent × Connection)) := do
  match frame.type with
  | .connect => pure (.leave (Handshake.onFrame conn (← connectDecode frame.payload) Handshake.onConnectFrame))
  | .accept => pure (.leave (Handshake.onFrame conn (← acceptDecode frame.payload) Handshake.onAcceptFrame))
  | .close => pure (.leave (Handshake.onFrame conn (← closeDecode frame.payload) Handshake.onCloseFrame))
  | .ping => pure (.leave (Handshake.onFrame conn (← pingDecode frame.payload) Handshake.onPingFrame))
  | .pong => pure (.leave (Handshake.onFrame conn (← pingDecode frame.payload) Handshake.onPongFrame))
  | _ => pure (.next ())

/-- The loop of `handshake::process_packet`. -/
def handshakeLoop (fuel : ℕ) (conn : Connection) (d : PacketDecoder) : Outcome (Handshake.HandshakeEvent × Connection) :=
  framesLoop fuel (fun _ => handshakeFrame conn) (fun _ => ({ result := .notHandshake },conn)) d ()

theorem connectDecode_eq (buf : Bytes) : connectDecode buf = .done (ConnectFrame.decode buf) := by
  refine sized_eq ?_
  intro long
  rw [ConnectFrame.wireSize] at long
  rw [u32At_inside (by omega),byteAt_inside (by omega),u16At_inside (by omega)]
  rfl

theorem acceptDecode_eq (buf : Bytes) : acceptDecode buf = .done (AcceptFrame.decode buf) := by
  refine sized_eq ?_
  intro long
  rw [AcceptFrame.wireSize] at long
  rw [u16At_inside (by omega),u32At_inside (by omega)]
  rfl

theorem closeDecode_eq (buf : Bytes) : closeDecode buf = .done (CloseFrame.decode buf) := by
  refine sized_eq ?_
  intro long
  rw [CloseFrame.wireSize] at long
  rw [byteAt_inside (by omega)]
  rfl

theorem pingDecode_eq (buf : Bytes) : pingDecode buf = .done (PingFrame.decode buf) := by
  refine sized_eq ?_
  intro long
  rw [PingFrame.wireSize] at long
  rw [u32At_inside (by omega),u32At_inside (by omega)]
  rfl

/-- What the source does with a frame, as a round of its loop. -/
def handshakeRound (conn : Connection) (frame : Frame) : Round Unit (Handshake.HandshakeEvent × Connection) :=
  match Handshake.processFrame conn frame with
  | none => .next ()
  | some r => .leave r

theorem handshakeFrame_eq (conn : Connection) (frame : Frame) :
    handshakeFrame conn frame = .done (handshakeRound conn frame) := by
  simp only [handshakeFrame,handshakeRound,Handshake.processFrame]
  cases frame.type <;>
    simp only [connectDecode_eq,acceptDecode_eq,closeDecode_eq,pingDecode_eq,Outcome.done_bind,Outcome.pure_eq]

theorem overFrames_handshake (conn : Connection) (frames : List Frame) :
    overFrames (fun _ => handshakeRound conn) (fun _ => ({ result := .notHandshake },conn)) frames () =
      Handshake.processFrames conn frames := by
  induction frames with
  | nil => rfl
  | cons frame frames ih =>
    rw [overFrames,handshakeRound,Handshake.processFrames,List.findSome?_cons]
    cases Handshake.processFrame conn frame with
    | none => exact ih
    | some r => rfl

theorem handshakeLoop_eq {fuel : ℕ} (fueled : enough ≤ fuel) (conn : Connection) {d : PacketDecoder} (whole : Whole d) :
    handshakeLoop fuel conn d = .done (Handshake.processFrames conn d.frames) := by
  have bound := d.header.payloadLength.toNat_lt
  rw [enough] at fueled
  rw [handshakeLoop,framesLoop_eq (fun _ => handshakeFrame_eq conn) fuel whole (by omega),overFrames_handshake]

/-! ### Data -/

def crdtMerge (fuel : ℕ) : Crdt → Bytes → Outcome (Crdt × Bool)
  | .lwwRegister r, data => do
    let (r,changed) ← lwwMerge r data
    pure (.lwwRegister r,changed)
  | .gCounter c, data => do
    let (c,changed) ← gMerge fuel c data
    pure (.gCounter c,changed)
  | .pnCounter c, data => do
    let (c,changed) ← pnMerge fuel c data
    pure (.pnCounter c,changed)
  | .orSet s, data => do
    match ← decodeEntries fuel data with
    | none => pure (.orSet s,false)
    | some incoming =>
      let (s,changed) := s.mergeDecoded incoming
      pure (.orSet s,changed)

def applyDelta (fuel : ℕ) (s : StateRegistry) (pathHash : UInt32) (data : Bytes) : Outcome (StateRegistry × Bool) :=
  match s.get pathHash with
  | none => pure (s,false)
  | some region => do
    let (crdt,changed) ← crdtMerge fuel region.crdt data
    let updates := if changed && s.notifies then s.updates ++ [(region.path,crdt.snapshot)] else s.updates
    pure ({ s with regions := s.regions.insert pathHash { region with crdt := crdt }, updates := updates },changed)

def deltaDecode (buf : Bytes) : Outcome (Option StateDeltaFrame) :=
  if buf.length < StateDeltaFrame.baseWireSize then pure none
  else do
    let pathHash ← u32At buf 0
    let crdtType ← readAt buf 4
    let reliability ← readAt buf 5
    let authorNodeId ← u16At buf 6
    pure (some ⟨pathHash,.ofByte crdtType,.ofByte reliability,authorNodeId⟩)

def snapshotDecode (buf : Bytes) : Outcome (Option StateSnapshotFrame) :=
  if buf.length < StateSnapshotFrame.baseWireSize then pure none
  else do
    let pathHash ← u32At buf 0
    let crdtType ← readAt buf 4
    let authorNodeId ← u16At buf 5
    pure (some ⟨pathHash,.ofByte crdtType,authorNodeId⟩)

def revokeDecode (buf : Bytes) : Outcome (Option CapabilityRevokeFrame) :=
  if buf.length < CapabilityRevokeFrame.wireSize then pure none
  else do
    let tokenId ← u32At buf 0
    let issuerNodeId ← u16At buf 4
    pure (some ⟨tokenId,issuerNodeId⟩)

def verifyFrameSignature (P : Primitives) (p : Peer) (payload : Bytes) (authorNodeId : UInt16) (baseSize : ℕ) :
    Outcome Bool :=
  if payload.length < baseSize + signatureSize then pure false
  else
    match p.peerKeys[authorNodeId]? with
    | none => pure false
    | some pk => do
      let contentLen := payload.length - signatureSize
      let sig ← slice payload contentLen signatureSize
      let content ← slice payload 0 contentLen
      pure (P.verify pk (copyBytes 64 sig) content)

/-- What stands between the head of a payload and its signature, as it is handed to
    a merge. -/
def bodyOf (payload : Bytes) (baseSize : ℕ) : Outcome Bytes :=
  slice payload baseSize (payload.length - signatureSize - baseSize)

def deltaAction (P : Primitives) (p : Peer) (nowUs : UInt32) (payload : Bytes) : Outcome Peer.FrameAction :=
  if payload.length < StateDeltaFrame.minWireSize then
    if payload.length ≥ 4 then do
      let pathHash ← u32At payload 0
      pure (.reportFailure 0 pathHash)
    else pure .ignore
  else do
    let sdf := (← deltaDecode payload).getD .zero
    let verified ← verifyFrameSignature P p payload sdf.authorNodeId StateDeltaFrame.baseWireSize
    if !verified then pure (.reportFailure sdf.authorNodeId sdf.pathHash)
    else
      let data ← bodyOf payload StateDeltaFrame.baseWireSize
      if p.refuses sdf.pathHash nowUs then pure .ignore else pure (.applyDelta sdf.pathHash data)

def snapshotAction (P : Primitives) (p : Peer) (payload : Bytes) : Outcome Peer.FrameAction :=
  if payload.length < StateSnapshotFrame.minWireSize then pure .ignore
  else do
    let ssf := (← snapshotDecode payload).getD .zero
    let verified ← verifyFrameSignature P p payload ssf.authorNodeId StateSnapshotFrame.baseWireSize
    if !verified then pure .ignore
    else
      let data ← bodyOf payload StateSnapshotFrame.baseWireSize
      pure (.applySnapshot ssf.pathHash data)

def grantAction (P : Primitives) (p : Peer) (payload : Bytes) : Outcome Peer.FrameAction := do
  match ← tokenDecode payload with
  | none => pure .ignore
  | some token =>
    match p.capStore.peerKey token.issuerId with
    | none => pure .ignore
    | some issuerPk => if CapabilityStore.verifyToken P token issuerPk then pure (.storeToken token) else pure .ignore

def revokeAction (payload : Bytes) : Outcome Peer.FrameAction := do
  match ← revokeDecode payload with
  | none => pure .ignore
  | some crf => pure (.revokeToken crf.tokenId)

def routeAction (payload : Bytes) : Outcome Peer.FrameAction :=
  if payload.length ≥ 6 then do
    let pathHash ← u32At payload 0
    let low ← readAt payload 4
    let high ← readAt payload 5
    pure (.learnRoute pathHash (UInt16.ofNat (low.toNat + high.toNat * 256)))
  else pure .ignore

def frameAction (P : Primitives) (p : Peer) (nowUs : UInt32) (frame : Frame) : Outcome Peer.FrameAction :=
  match frame.type with
  | .stateDelta => deltaAction P p nowUs frame.payload
  | .stateSnapshot => snapshotAction P p frame.payload
  | .capabilityGrant => grantAction P p frame.payload
  | .capabilityRevoke => revokeAction frame.payload
  | .routeAnnounce => routeAction frame.payload
  | _ => pure .ignore

/-- Of the actions only merges read on. -/
def perform (fuel : ℕ) (mc : ManagedConnection) (st : Peer.Progress) : Peer.FrameAction → Outcome Peer.Progress
  | .applyDelta pathHash data => do
    let (state,changed) ← applyDelta fuel st.peer.state pathHash data
    let router := if changed then st.peer.router.onDeliverySuccess mc.remoteNodeId pathHash mc.conn.srttUs
      else st.peer.router
    pure ⟨{ st.peer with state := state, router := router },if changed then st.changes + 1 else st.changes⟩
  | .applySnapshot pathHash data => do
    let (state,changed) ← applyDelta fuel st.peer.state pathHash data
    pure ⟨{ st.peer with state := state },if changed then st.changes + 1 else st.changes⟩
  | action => pure (Peer.perform mc st action)

/-- One frame, with the number of its turn. -/
def dataFrame (fuel : ℕ) (P : Primitives) (mc : ManagedConnection) (clock : ℕ → ℕ) (s : ℕ × Peer.Progress) (frame : Frame) :
    Outcome (Round (ℕ × Peer.Progress) (Peer × ℕ)) := do
  let action ← frameAction P s.2.peer (mc.conn.elapsedUs (clock s.1)) frame
  let st ← perform fuel mc s.2 action
  pure (.next (s.1 + 1,st))

/-- The loop of `Peer::process_data_frames`. -/
def dataLoop (fuel : ℕ) (P : Primitives) (p : Peer) (mc : ManagedConnection) (clock : ℕ → ℕ) (d : PacketDecoder) :
    Outcome (Peer × ℕ) :=
  framesLoop fuel (dataFrame fuel P mc clock) (fun s => (s.2.peer,s.2.changes)) d (0,⟨p,0⟩)

theorem crdtMerge_eq {fuel : ℕ} (fueled : enough ≤ fuel) (c : Crdt) (data : Bytes) :
    crdtMerge fuel c data = .done (c.merge data) := by
  cases c with
  | lwwRegister r =>
    rw [crdtMerge,lwwMerge_eq]
    rfl
  | gCounter c =>
    rw [crdtMerge,gMerge_eq fueled]
    rfl
  | pnCounter c =>
    rw [crdtMerge,pnMerge_eq fueled]
    rfl
  | orSet s =>
    rw [crdtMerge,decodeEntries_eq fueled,Crdt.merge,OrSet.merge,Outcome.done_bind]
    cases OrSet.decodeEntries data <;> rfl

theorem applyDelta_eq {fuel : ℕ} (fueled : enough ≤ fuel) (s : StateRegistry) (pathHash : UInt32) (data : Bytes) :
    applyDelta fuel s pathHash data = .done (s.applyDelta pathHash data) := by
  rw [applyDelta,StateRegistry.applyDelta]
  cases s.get pathHash with
  | none => rfl
  | some region =>
    simp only [crdtMerge_eq fueled,Outcome.done_bind]
    rfl

theorem deltaDecode_eq (buf : Bytes) : deltaDecode buf = .done (StateDeltaFrame.decode buf) := by
  refine sized_eq ?_
  intro long
  rw [StateDeltaFrame.baseWireSize] at long
  rw [u32At_inside (by omega),byteAt_inside (by omega),byteAt_inside (by omega),u16At_inside (by omega)]
  rfl

theorem snapshotDecode_eq (buf : Bytes) : snapshotDecode buf = .done (StateSnapshotFrame.decode buf) := by
  refine sized_eq ?_
  intro long
  rw [StateSnapshotFrame.baseWireSize] at long
  rw [u32At_inside (by omega),byteAt_inside (by omega),u16At_inside (by omega)]
  rfl

theorem revokeDecode_eq (buf : Bytes) : revokeDecode buf = .done (CapabilityRevokeFrame.decode buf) := by
  refine sized_eq ?_
  intro long
  rw [CapabilityRevokeFrame.wireSize] at long
  rw [u32At_inside (by omega),u16At_inside (by omega)]
  rfl

theorem verifyFrameSignature_eq (P : Primitives) (p : Peer) (payload : Bytes) (authorNodeId : UInt16) (baseSize : ℕ) :
    verifyFrameSignature P p payload authorNodeId baseSize =
      .done (p.verifyFrameSignature P payload authorNodeId baseSize) := by
  rw [verifyFrameSignature,Peer.verifyFrameSignature]
  split
  · rfl
  · next long =>
    rw [signatureSize] at long
    cases p.peerKeys[authorNodeId]? with
    | none => rfl
    | some pk =>
      dsimp only
      rw [slice_inside (by rw [signatureSize]; omega),slice_inside (by omega)]
      simp only [Outcome.done_bind,signatureSize,copyBytes_take,List.drop_zero]
      rfl

theorem bodyOf_eq {payload : Bytes} {baseSize : ℕ} (long : baseSize + signatureSize ≤ payload.length) :
    bodyOf payload baseSize = .done (Peer.body payload baseSize) := slice_inside (by omega)

theorem deltaAction_eq (P : Primitives) (p : Peer) (nowUs : UInt32) (payload : Bytes) :
    deltaAction P p nowUs payload = .done (p.deltaAction P nowUs payload) := by
  rw [deltaAction,Peer.deltaAction]
  by_cases short : payload.length < StateDeltaFrame.minWireSize
  · rw [if_pos short,if_pos short]
    split
    · next word =>
      rw [u32At_inside (by omega)]
      rfl
    · rfl
  · rw [if_neg short,if_neg short]
    simp only [deltaDecode_eq,verifyFrameSignature_eq,bodyOf_eq (Nat.not_lt.mp short),Outcome.done_bind,Outcome.pure_eq]
    split
    · rfl
    · split <;> rfl

theorem snapshotAction_eq (P : Primitives) (p : Peer) (payload : Bytes) :
    snapshotAction P p payload = .done (p.snapshotAction P payload) := by
  rw [snapshotAction,Peer.snapshotAction]
  by_cases short : payload.length < StateSnapshotFrame.minWireSize
  · rw [if_pos short,if_pos short]
    rfl
  · rw [if_neg short,if_neg short]
    simp only [snapshotDecode_eq,verifyFrameSignature_eq,bodyOf_eq (Nat.not_lt.mp short),Outcome.done_bind,Outcome.pure_eq]
    split <;> rfl

theorem grantAction_eq (P : Primitives) (p : Peer) (payload : Bytes) :
    grantAction P p payload = .done (match p.capStore.acceptGrant P payload with
      | none => .ignore
      | some token => .storeToken token) := by
  rw [grantAction,tokenDecode_eq,CapabilityStore.acceptGrant,Outcome.done_bind]
  cases CapabilityToken.decode payload with
  | none => rfl
  | some token =>
    dsimp only
    cases p.capStore.peerKey token.issuerId with
    | none => rfl
    | some issuerPk =>
      dsimp only
      split <;> rfl

theorem frameAction_eq (P : Primitives) (p : Peer) (nowUs : UInt32) (frame : Frame) :
    frameAction P p nowUs frame = .done (p.frameAction P nowUs frame) := by
  rw [frameAction,Peer.frameAction]
  cases frame.type with
  | stateDelta => exact deltaAction_eq P p nowUs frame.payload
  | stateSnapshot => exact snapshotAction_eq P p frame.payload
  | capabilityGrant => exact grantAction_eq P p frame.payload
  | capabilityRevoke =>
    dsimp only
    rw [revokeAction,revokeDecode_eq,Outcome.done_bind]
    cases CapabilityRevokeFrame.decode frame.payload <;> rfl
  | routeAnnounce =>
    dsimp only
    rw [routeAction]
    split
    · next long =>
      rw [u32At_inside (by omega),byteAt_inside (by omega),byteAt_inside (by omega)]
      rfl
    · rfl
  | _ => rfl

theorem perform_eq {fuel : ℕ} (fueled : enough ≤ fuel) (mc : ManagedConnection) (st : Peer.Progress)
    (action : Peer.FrameAction) : perform fuel mc st action = .done (Peer.perform mc st action) := by
  cases action with
  | applyDelta pathHash data =>
    rw [perform,applyDelta_eq fueled]
    rfl
  | applySnapshot pathHash data =>
    rw [perform,applyDelta_eq fueled]
    rfl
  | _ => rfl

/-- What the source does with a frame, as a round of its loop. -/
def dataRound (P : Primitives) (mc : ManagedConnection) (clock : ℕ → ℕ) (s : ℕ × Peer.Progress) (frame : Frame) :
    Round (ℕ × Peer.Progress) (Peer × ℕ) :=
  .next (s.1 + 1,Peer.frameStep P mc s.2 ⟨frame,clock s.1⟩)

theorem dataFrame_eq {fuel : ℕ} (fueled : enough ≤ fuel) (P : Primitives) (mc : ManagedConnection) (clock : ℕ → ℕ)
    (s : ℕ × Peer.Progress) (frame : Frame) : dataFrame fuel P mc clock s frame = .done (dataRound P mc clock s frame) := by
  rw [dataFrame,frameAction_eq,Outcome.done_bind,perform_eq fueled]
  rfl

theorem overFrames_data (P : Primitives) (mc : ManagedConnection) (clock : ℕ → ℕ) (frames : List Frame) (i : ℕ)
    (st : Peer.Progress) :
    overFrames (dataRound P mc clock) (fun s => (s.2.peer,s.2.changes)) frames (i,st) =
      ((run (Peer.frameStep P mc) st ((frames.zipIdx i).map (fun f => ⟨f.1,clock f.2⟩))).peer,
        (run (Peer.frameStep P mc) st ((frames.zipIdx i).map (fun f => ⟨f.1,clock f.2⟩))).changes) := by
  induction frames generalizing i st with
  | nil => rfl
  | cons frame frames ih => exact ih (i + 1) _

theorem dataLoop_eq {fuel : ℕ} (fueled : enough ≤ fuel) (P : Primitives) (p : Peer) (mc : ManagedConnection)
    (clock : ℕ → ℕ) {d : PacketDecoder} (whole : Whole d) :
    dataLoop fuel P p mc clock d = .done (p.processDataFrames P mc clock d) := by
  have bound := d.header.payloadLength.toNat_lt
  have rounds : d.header.payloadLength.toNat - d.frameCursor < fuel := by
    rw [enough] at fueled
    omega
  rw [dataLoop,framesLoop_eq (dataFrame_eq fueled P mc clock) fuel whole rounds,overFrames_data]
  rfl

/-- Every decoder, on all bytes, comes to what it computes over lists and does not
    read outside of them. -/
theorem decoders_stay_inside (data : Bytes) :
    (∀ r : LwwRegister, Ends (fun _ => lwwMerge r data) (r.merge data)) ∧
    (∀ c : GCounter, Ends (fun fuel => gMerge fuel c data) (c.merge data)) ∧
    (∀ c : PnCounter, Ends (fun fuel => pnMerge fuel c data) (c.merge data)) ∧
    Ends (fun fuel => decodeEntries fuel data) (OrSet.decodeEntries data) ∧
    Ends (fun fuel => vectorDecode fuel data) (VersionVector.decode data) ∧
    (∀ out : RecoveryRequest, Ends (fun fuel => recoveryDecode fuel data out) (RecoveryRequest.decode data out)) ∧
    Ends (fun _ => tokenDecode data) (CapabilityToken.decode data) ∧
    Ends (fun _ => subscribeDecode data) (SubscribeFramePayload.decode data) ∧
    ∀ d d' : PacketDecoder, d.parse data = (d',true) →
      (∀ conn : Connection, Ends (fun fuel => handshakeLoop fuel conn d') (Handshake.processFrames conn d'.frames)) ∧
      ∀ (P : Primitives) (p : Peer) (mc : ManagedConnection) (clock : ℕ → ℕ),
        Ends (fun fuel => dataLoop fuel P p mc clock d') (p.processDataFrames P mc clock d') := by
  refine ⟨?_,?_,?_,?_,?_,?_,?_,?_,?_⟩
  · exact fun r => ⟨enough,fun _ _ => lwwMerge_eq r data⟩
  · exact fun c => ⟨enough,fun _ fueled => gMerge_eq fueled c data⟩
  · exact fun c => ⟨enough,fun _ fueled => pnMerge_eq fueled c data⟩
  · exact ⟨enough,fun _ fueled => decodeEntries_eq fueled data⟩
  · exact ⟨enough,fun _ fueled => vectorDecode_eq fueled data⟩
  · exact fun out => ⟨enough,fun _ fueled => recoveryDecode_eq fueled data out⟩
  · exact ⟨enough,fun _ _ => tokenDecode_eq data⟩
  · exact ⟨enough,fun _ _ => subscribeDecode_eq data⟩
  · intro d d' parsed
    have whole := whole_parse parsed
    constructor
    · exact fun conn => ⟨enough,fun _ fueled => handshakeLoop_eq fueled conn whole⟩
    · exact fun P p mc clock => ⟨enough,fun _ fueled => dataLoop_eq fueled P p mc clock whole⟩

end Rom.FrameLoops
