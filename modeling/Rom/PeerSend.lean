import Rom.Peer

/-!
How a node sends its deltas to another (`send_deltas_to`, `build_signed_delta`)
and what of them arrives (`poll`). Each delta is signed and becomes one frame;
frames are packed into packets, and a packet that is full is sent on its way. The
packets carry the frames in order (`sendDeltasTo_frames`), but a delta that fits no
packet is counted and not sent (`loses_large_delta`); `lossless_iff` says that
this is the only way in which a delta gets lost.
-/
namespace Rom
open Std Rom.Runs

namespace Peer

/-! ### Sending -/

/-- The head of a delta and its bytes, as they are signed. -/
def deltaContent (p : Peer) (d : PendingDelta) : Bytes :=
  (StateDeltaFrame.mk d.pathHash d.crdtType d.reliability p.nodeId).encode ++ d.data

def buildSignedDelta (P : Primitives) (p : Peer) (d : PendingDelta) : Bytes :=
  p.deltaContent d ++ (P.sign p.keys.secretKey (p.deltaContent d)).toList

/-- `send_deltas_to` under way: the packet in the making, what was handed to the
    transport, and how often the clock was read. -/
structure Sending where
  enc : PacketEncoder
  mc : ManagedConnection
  framesSent : Nat := 0
  readings : Nat := 0
  sent : List (Bytes × Endpoint) := []

namespace Sending

/-- The packet is finished and sent; the clock is read for its timestamp and once
    more for the tracker. -/
def sendPacket (P : Primitives) (clock : Nat → Nat) (st : Sending) : Sending :=
  let (pktNum,conn) := st.mc.conn.nextSendPacketNumber
  let enc := { st.enc with packetNumber := pktNum, timestampUs := conn.elapsedUs (clock st.readings) }
  let (pkt,enc) := enc.finalize P
  let sendTracker := st.mc.sendTracker.onPacketSent pktNum (conn.elapsedUs (clock (st.readings + 1)))
    (UInt16.ofNat pkt.length)
  { st with
    enc := enc
    mc := { st.mc with conn := conn, sendTracker := sendTracker }
    readings := st.readings + 2
    sent := st.sent ++ [(pkt,conn.remote)] }

/-- One delta. The frame that does not fit is tried again in a new packet, and
    what comes of that is not looked at. -/
def sendDelta (P : Primitives) (p : Peer) (clock : Nat → Nat) (st : Sending) (d : PendingDelta) : Sending :=
  let framePayload := p.buildSignedDelta P d
  let payloadLen := UInt16.ofNat framePayload.length
  match st.enc.addFrame .stateDelta framePayload payloadLen with
  | some enc => { st with enc := enc, framesSent := st.framesSent + 1 }
  | none =>
    let st := st.sendPacket P clock
    let enc := { st.enc with packetType := .data, connectionId := st.mc.conn.remoteConnId }
    let enc := (enc.addFrame .stateDelta framePayload payloadLen).getD enc
    { st with enc := enc, framesSent := st.framesSent + 1 }

end Sending

/-- The state after all deltas are sent; its `framesSent` is what the source
    returns. -/
def sendDeltasTo (P : Primitives) (p : Peer) (mc : ManagedConnection) (clock : Nat → Nat) (deltas : List PendingDelta) :
    Sending :=
  let enc : PacketEncoder := { packetType := .data, connectionId := mc.conn.remoteConnId }
  let st := run (Sending.sendDelta P p clock) { enc := enc, mc := mc } deltas
  if st.enc.payloadSize > 0 then st.sendPacket P clock else st

/-! ### Receiving -/

/-- A packet from the transport, and the times at which its frames are processed. -/
structure Incoming where
  data : Bytes
  clock : Nat → Nat

/-- What `poll` hands on to `process_data_frames`: a packet that parses, with the
    right checksum and of type `DATA`. -/
def dataPacket (P : Primitives) (data : Bytes) : Option PacketDecoder :=
  match PacketDecoder.ofPacket data with
  | none => none
  | some d => if d.verifyChecksum P = true ∧ d.header.packetType = .data then some d else none

def pollData (P : Primitives) (mc : ManagedConnection) (p : Peer) (i : Incoming) : Peer :=
  match dataPacket P i.data with
  | none => p
  | some d => (p.processDataFrames P mc i.clock d).1

/-- The call of `apply_delta` that an action makes. -/
def FrameAction.deltaCall : FrameAction → Option (UInt32 × Bytes)
  | .applyDelta pathHash data => some (pathHash,data)
  | _ => none

/-- The calls of `apply_delta` for one packet. -/
def deltaCalls (P : Primitives) (mc : ManagedConnection) (p : Peer) (i : Incoming) : List (UInt32 × Bytes) :=
  match dataPacket P i.data with
  | none => []
  | some d =>
    outputs (frameStep P mc) (fun st a => (arrivalAction P mc st a).deltaCall.toList) ⟨p,0⟩ (arrivals d i.clock)

/-- The calls of `apply_delta` for packets that arrive one after the other. -/
def deltasReached (P : Primitives) (mc : ManagedConnection) (p : Peer) (is : List Incoming) : List (UInt32 × Bytes) :=
  outputs (pollData P mc) (deltaCalls P mc) p is

/-- The frames that a packet brings to `process_data_frames`. -/
def dataFrames (P : Primitives) (data : Bytes) : List Frame :=
  match dataPacket P data with
  | none => []
  | some d => d.frames

end Peer

namespace PeerSend
open Peer

/-! ### What goes on the wire -/

/-- The frame that a delta becomes, if one fits into a packet: its payload is cut
    to the length as 16 bits hold it. -/
def deltaFrame (P : Primitives) (p : Peer) (d : PendingDelta) : Option Frame :=
  let payload := p.buildSignedDelta P d
  let size := (UInt16.ofNat payload.length).toNat
  if packetHeaderSize + (frameHeaderSize + size) > maxPacketSize then none
  else some ⟨.stateDelta,payload.take size⟩

/-- The packets sent and the frames still in the making are the given frames. -/
structure Packs (P : Primitives) (st : Sending) (frames pending : List Frame) : Prop where
  order : st.sent.flatMap (fun pkt => dataFrames P pkt.1) ++ pending = frames
  sizes : ∀ pkt ∈ st.sent, pkt.1.length ≤ maxPacketSize
  payload : st.enc.payload = pending.flatMap Frame.wire
  small : ∀ f ∈ pending, f.payload.length < 2^16
  room : st.enc.cursor ≤ maxPacketSize
  data : st.enc.packetType = .data

section
variable {P : Primitives} {p : Peer} (clock : Nat → Nat) {st : Sending} {frames pending : List Frame}

/-- A finished packet is data and brings its frames. -/
theorem dataFrames_finalize {enc : PacketEncoder} (payload : enc.payload = pending.flatMap Frame.wire)
    (small : ∀ f ∈ pending, f.payload.length < 2^16) (room : enc.cursor ≤ maxPacketSize)
    (data : enc.packetType = .data) : dataFrames P (enc.finalize P).1 = pending := by
  have bound : enc.payload.length < 2^16 := by
    rw [PacketEncoder.cursor,packetHeaderSize,maxPacketSize] at room
    omega
  obtain ⟨d,parsed,checked,type,same⟩ := PacketEncoder.frames_finalize P enc pending payload small bound
  have accepted : dataPacket P (enc.finalize P).1 = some d := by
    simp only [dataPacket,parsed]
    rw [if_pos ⟨checked,type.trans data⟩]
  rw [dataFrames,accepted]
  exact same

theorem finalize_length (P : Primitives) (enc : PacketEncoder) : (enc.finalize P).1.length = enc.cursor := by
  rw [PacketEncoder.finalize_eq,List.length_append,PacketHeader.encode_length,PacketEncoder.cursor]

/-- Sending the packet moves its frames to the wire. -/
theorem Packs.sendPacket (packs : Packs P st frames pending) : Packs P (st.sendPacket P clock) frames [] := by
  let enc : PacketEncoder := { st.enc with
    packetNumber := st.mc.conn.nextSendPacketNumber.1
    timestampUs := st.mc.conn.nextSendPacketNumber.2.elapsedUs (clock st.readings) }
  have sent : (st.sendPacket P clock).sent = st.sent ++ [((enc.finalize P).1,st.mc.conn.remote)] := rfl
  have wire : dataFrames P (enc.finalize P).1 = pending :=
    dataFrames_finalize packs.payload packs.small packs.room packs.data
  refine ⟨?_,?_,rfl,by simp,show 16 ≤ maxPacketSize by decide,packs.data⟩
  · rw [sent,List.flatMap_append,List.append_nil,List.flatMap_singleton,wire,packs.order]
  · intro pkt member
    rw [sent,List.mem_append,List.mem_singleton] at member
    rcases member with earlier | rfl
    · exact packs.sizes pkt earlier
    · rw [finalize_length]
      exact packs.room

/-- A frame that still fits is added to those in the making. -/
theorem Packs.addFrame (packs : Packs P st frames pending) {payload : Bytes} {size : UInt16} {enc : PacketEncoder}
    (long : size.toNat ≤ payload.length) (added : st.enc.addFrame .stateDelta payload size = some enc) (n : Nat) :
    Packs P { st with enc := enc, framesSent := n } (frames ++ [⟨.stateDelta,payload.take size.toNat⟩])
      (pending ++ [⟨.stateDelta,payload.take size.toNat⟩]) := by
  have cut : (payload.take size.toNat).length = size.toNat := by
    rw [List.length_take]
    omega
  rw [PacketEncoder.addFrame] at added
  split at added
  · cases added
  · next fits =>
    cases added
    refine ⟨?_,packs.sizes,?_,?_,?_,packs.data⟩
    · rw [← List.append_assoc,packs.order]
    · rw [packs.payload,List.flatMap_append,List.flatMap_singleton,Frame.wire,cut,UInt16.ofNat_toNat]
    · intro f member
      rw [List.mem_append,List.mem_singleton] at member
      rcases member with earlier | rfl
      · exact packs.small f earlier
      · rw [cut]
        exact size.toNat_lt
    · simp only [PacketEncoder.cursor,List.length_append,List.length_cons,writeU16_length,cut] at fits ⊢
      rw [frameHeaderSize] at fits
      omega

/-- A frame fits into the packet only if it fits into an empty one. -/
theorem deltaFrame_of_added {enc enc' : PacketEncoder} {d : PendingDelta}
    (added : enc.addFrame .stateDelta (p.buildSignedDelta P d) (UInt16.ofNat (p.buildSignedDelta P d).length) = some enc') :
    deltaFrame P p d = some
      ⟨.stateDelta,(p.buildSignedDelta P d).take (UInt16.ofNat (p.buildSignedDelta P d).length).toNat⟩ := by
  rw [PacketEncoder.addFrame] at added
  split at added
  · cases added
  · next fits =>
    rw [PacketEncoder.cursor] at fits
    rw [deltaFrame,if_neg (by omega)]

theorem deltaFrame_of_refused {enc : PacketEncoder} {d : PendingDelta} (empty : enc.payload = [])
    (refused : enc.addFrame .stateDelta (p.buildSignedDelta P d) (UInt16.ofNat (p.buildSignedDelta P d).length) = none) :
    deltaFrame P p d = none := by
  rw [PacketEncoder.addFrame] at refused
  split at refused
  · next full =>
    rw [PacketEncoder.cursor,empty,List.length_nil,Nat.add_zero] at full
    exact if_pos full
  · cases refused

/-- A delta adds its frame, if there is one. -/
theorem Packs.sendDelta (packs : Packs P st frames pending) (d : PendingDelta) :
    ∃ pending', Packs P (st.sendDelta P p clock d) (frames ++ (deltaFrame P p d).toList) pending' := by
  have long : (UInt16.ofNat (p.buildSignedDelta P d).length).toNat ≤ (p.buildSignedDelta P d).length := by
    rw [UInt16.toNat_ofNat']
    exact Nat.mod_le _ _
  rw [Sending.sendDelta]
  dsimp only
  split
  · next enc added =>
    rw [deltaFrame_of_added added]
    exact ⟨_,packs.addFrame long added _⟩
  · have sent : Packs P (st.sendPacket P clock) frames [] := packs.sendPacket clock
    let enc : PacketEncoder := { (st.sendPacket P clock).enc with
      packetType := .data
      connectionId := (st.sendPacket P clock).mc.conn.remoteConnId }
    have again (n : Nat) : Packs P { st.sendPacket P clock with enc := enc, framesSent := n } frames [] :=
      ⟨sent.order,sent.sizes,sent.payload,sent.small,sent.room,rfl⟩
    cases added : enc.addFrame .stateDelta (p.buildSignedDelta P d) (UInt16.ofNat (p.buildSignedDelta P d).length) with
    | some enc' =>
      rw [deltaFrame_of_added added]
      exact ⟨_,(again 0).addFrame long added _⟩
    | none =>
      rw [deltaFrame_of_refused (again 0).payload added,Option.toList_none,List.append_nil]
      exact ⟨_,again _⟩

theorem run_packs (packs : Packs P st frames pending) (deltas : List PendingDelta) :
    ∃ pending', Packs P (run (Sending.sendDelta P p clock) st deltas) (frames ++ deltas.filterMap (deltaFrame P p))
      pending' := by
  induction deltas generalizing st frames pending with
  | nil => exact ⟨pending,by simpa using packs⟩
  | cons d deltas ih =>
    obtain ⟨next,packs⟩ := packs.sendDelta (p := p) clock d
    obtain ⟨last,packs⟩ := ih packs
    refine ⟨last,?_⟩
    rw [List.append_assoc] at packs
    rw [run_cons]
    cases frame : deltaFrame P p d with
    | none => simpa [frame] using packs
    | some f => simpa [frame] using packs

theorem run_framesSent (deltas : List PendingDelta) :
    (run (Sending.sendDelta P p clock) st deltas).framesSent = st.framesSent + deltas.length := by
  induction deltas generalizing st with
  | nil => rfl
  | cons d deltas ih =>
    have one : (st.sendDelta P p clock d).framesSent = st.framesSent + 1 := by
      rw [Sending.sendDelta]
      dsimp only
      split <;> rfl
    rw [run_cons,ih,one,List.length_cons]
    omega

end

/-- The packets carry the frames of the deltas, in order. -/
theorem sendDeltasTo_frames (P : Primitives) (p : Peer) (mc : ManagedConnection) (clock : Nat → Nat)
    (deltas : List PendingDelta) :
    (p.sendDeltasTo P mc clock deltas).sent.flatMap (fun pkt => dataFrames P pkt.1) =
      deltas.filterMap (deltaFrame P p) ∧
    (∀ pkt ∈ (p.sendDeltasTo P mc clock deltas).sent, pkt.1.length ≤ maxPacketSize) ∧
    (p.sendDeltasTo P mc clock deltas).framesSent = deltas.length := by
  have start : Packs P { enc := { packetType := .data, connectionId := mc.conn.remoteConnId }, mc := mc } [] [] :=
    ⟨rfl,by simp,rfl,by simp,show 16 ≤ maxPacketSize by decide,rfl⟩
  obtain ⟨pending,packs⟩ := run_packs (p := p) clock start deltas
  rw [sendDeltasTo]
  split
  · have sent := packs.sendPacket clock
    have order := sent.order
    rw [List.append_nil] at order
    exact ⟨order,sent.sizes,(run_framesSent clock deltas).trans (Nat.zero_add _)⟩
  · next nothing =>
    have empty : pending = [] := by
      rw [PacketEncoder.payloadSize,PacketEncoder.cursor,Nat.add_sub_cancel_left,packs.payload] at nothing
      cases pending with
      | nil => rfl
      | cons f rest => simp [Frame.wire] at nothing
    have order := packs.order
    rw [empty,List.append_nil] at order
    exact ⟨order,packs.sizes,(run_framesSent clock deltas).trans (Nat.zero_add _)⟩

/-! ### What is made of it -/

/-- The call of `apply_delta` for a frame at a node without access control. -/
def openCall (P : Primitives) (p : Peer) (frame : Frame) : Option (UInt32 × Bytes) :=
  if frame.type = .stateDelta ∧
      p.verifyFrameSignature P frame.payload (readU16 (frame.payload.drop 6)) StateDeltaFrame.baseWireSize = true then
    some (readU32 frame.payload,body frame.payload StateDeltaFrame.baseWireSize)
  else none

/-- The keys of the node and no access control. -/
def Open (p q : Peer) : Prop := q.peerKeys = p.peerKeys ∧ q.accessControl = false

section
variable {P : Primitives} {p q : Peer} {mc : ManagedConnection}

theorem deltaCall_open (same : Open p q) (nowUs : UInt32) (frame : Frame) :
    (q.frameAction P nowUs frame).deltaCall = openCall P p frame := by
  have signed : ∀ payload author base,
      q.verifyFrameSignature P payload author base = p.verifyFrameSignature P payload author base := by
    intro payload author base
    rw [verifyFrameSignature,verifyFrameSignature,same.1]
  have passes : ∀ hash, q.refuses hash nowUs = false := by
    intro hash
    rw [refuses,same.2,Bool.false_and]
  by_cases type : frame.type = .stateDelta
  · have action : q.frameAction P nowUs frame = q.deltaAction P nowUs frame.payload := by
      simp only [frameAction,type]
    rw [action,openCall]
    by_cases valid : p.verifyFrameSignature P frame.payload (readU16 (frame.payload.drop 6))
        StateDeltaFrame.baseWireSize = true
    · rw [if_pos ⟨type,valid⟩,deltaAction_apply_iff.mpr ⟨rfl,rfl,(signed _ _ _).trans valid,passes _⟩]
      rfl
    · rw [if_neg (fun both => valid both.2)]
      rcases deltaAction_range P q nowUs frame.payload with ⟨hash,data,applied⟩ | ⟨_,_,failed⟩ | ignored
      · exact absurd ((signed _ _ _).symm.trans (deltaAction_apply_iff.mp applied).2.2.1) valid
      · rw [failed]
        rfl
      · rw [ignored]
        rfl
  · rw [openCall,if_neg (fun both => type both.1)]
    have reaches := frameAction_reaches P q nowUs frame
    cases action : q.frameAction P nowUs frame with
    | applyDelta hash data =>
      rw [action] at reaches
      exact absurd reaches.1 type
    | _ => rfl

theorem Open.frameStep {st : Progress} (same : Open p st.peer) (a : Arrival) : Open p (frameStep P mc st a).peer := by
  obtain ⟨keys,control⟩ := frameStep_settings P mc st a
  exact ⟨keys.trans same.1,control.trans same.2⟩

theorem Open.pollData (same : Open p q) (i : Incoming) : Open p (pollData P mc q i) := by
  rw [Peer.pollData]
  split
  · exact same
  · exact run_invariant (I := fun st : Progress => Open p st.peer) (fun _ a same => same.frameStep a) same

theorem arrivals_frames (d : PacketDecoder) (clock : Nat → Nat) : (arrivals d clock).map (·.frame) = d.frames := by
  rw [arrivals,List.map_map]
  exact List.zipIdx_map_fst 0 d.frames

theorem deltaCalls_open (same : Open p q) (i : Incoming) :
    deltaCalls P mc q i = (dataFrames P i.data).filterMap (openCall P p) := by
  rw [deltaCalls,dataFrames]
  cases dataPacket P i.data with
  | none => rfl
  | some d =>
    have calls : outputs (frameStep P mc) (fun st a => (arrivalAction P mc st a).deltaCall.toList) ⟨q,0⟩
        (arrivals d i.clock) = (arrivals d i.clock).flatMap (fun a => (openCall P p a.frame).toList) :=
      outputs_eq_flatMap (I := fun st : Progress => Open p st.peer) (fun _ a same => same.frameStep a)
        (fun _ a same => congrArg Option.toList (deltaCall_open same _ a.frame)) same
    show outputs _ _ _ _ = d.frames.filterMap (openCall P p)
    rw [calls,← arrivals_frames d i.clock,List.filterMap_map,List.filterMap_eq_flatMap_toList]
    rfl

theorem deltasReached_open (open_ : p.accessControl = false) (is : List Incoming) :
    deltasReached P mc p is = (is.flatMap (fun i => dataFrames P i.data)).filterMap (openCall P p) := by
  have calls : deltasReached P mc p is = is.flatMap (fun i => (dataFrames P i.data).filterMap (openCall P p)) :=
    outputs_eq_flatMap (I := Open p) (fun _ i same => same.pollData i) (fun _ i same => deltaCalls_open same i)
      ⟨rfl,open_⟩
  rw [calls,List.filterMap_flatMap]

end

/-! ### Nothing is lost -/

/-- Parsed and processed in order, the packets make the receiver apply exactly the
    deltas; no packet is too large, and as many frames are counted as were sent. -/
def Lossless (P : Primitives) (p : Peer) (mc : ManagedConnection) (clock : Nat → Nat) (deltas : List PendingDelta)
    (receiver : Peer) (link : ManagedConnection) : Prop :=
  let out := p.sendDeltasTo P mc clock deltas
  (∀ is : List Incoming, is.map (·.data) = out.sent.map (·.1) →
    deltasReached P link receiver is = deltas.map (fun d => (d.pathHash,d.data))) ∧
  (∀ pkt ∈ out.sent, pkt.1.length ≤ maxPacketSize) ∧
  out.framesSent = (out.sent.flatMap (fun pkt => dataFrames P pkt.1)).countP (fun f => f.type = .stateDelta)

/-- The data that fits into a packet with all the heads and its signature. -/
def maxDeltaSize : Nat := maxPacketSize - packetHeaderSize - frameHeaderSize - StateDeltaFrame.minWireSize

section
variable {P : Primitives} {p receiver : Peer} {d : PendingDelta}

theorem buildSignedDelta_length : (p.buildSignedDelta P d).length = StateDeltaFrame.minWireSize + d.data.length := by
  rw [buildSignedDelta,deltaContent,List.length_append,List.length_append,StateDeltaFrame.encode_length,
    Vector.length_toList,StateDeltaFrame.minWireSize,signatureSize]
  omega

/-- A delta that fits is sent as a whole. -/
theorem deltaFrame_small (small : d.data.length ≤ maxDeltaSize) :
    deltaFrame P p d = some ⟨.stateDelta,p.buildSignedDelta P d⟩ := by
  have short : (p.buildSignedDelta P d).length ≤ maxPacketSize - packetHeaderSize - frameHeaderSize := by
    rw [buildSignedDelta_length]
    rw [maxDeltaSize] at small
    have room : StateDeltaFrame.minWireSize ≤ maxPacketSize - packetHeaderSize - frameHeaderSize := by decide
    omega
  have size : (UInt16.ofNat (p.buildSignedDelta P d).length).toNat = (p.buildSignedDelta P d).length := by
    rw [UInt16.toNat_ofNat',Nat.mod_eq_of_lt]
    rw [maxPacketSize] at short
    omega
  have fits : ¬ packetHeaderSize + (frameHeaderSize + (p.buildSignedDelta P d).length) > maxPacketSize := by
    rw [maxPacketSize,packetHeaderSize,frameHeaderSize] at *
    omega
  simp only [deltaFrame,size,List.take_length,if_neg fits]

/-- What the author has signed is applied as it was. -/
theorem openCall_signed (signs : ∀ m, P.verify p.keys.publicKey (P.sign p.keys.secretKey m) m = true)
    (known : receiver.peerKeys[p.nodeId]? = some p.keys.publicKey) :
    openCall P receiver ⟨.stateDelta,p.buildSignedDelta P d⟩ = some (d.pathHash,d.data) := by
  have author : readU16 ((p.buildSignedDelta P d).drop 6) = p.nodeId := readU16_write _ _
  have hash : readU32 (p.buildSignedDelta P d) = d.pathHash := readU32_write _ _
  have data : body (p.buildSignedDelta P d) StateDeltaFrame.baseWireSize = d.data := by
    rw [body_eq,buildSignedDelta,content_signed]
    rfl
  have valid : receiver.verifyFrameSignature P (p.buildSignedDelta P d) p.nodeId StateDeltaFrame.baseWireSize = true := by
    refine verifyFrameSignature_iff.mpr ⟨?_,_,known,?_⟩
    · rw [buildSignedDelta_length,StateDeltaFrame.minWireSize]
      omega
    · rw [buildSignedDelta,content_signed,trailer_signed]
      exact signs _
  rw [openCall,if_pos ⟨rfl,by rw [author]; exact valid⟩,hash,data]

/-- A delta that does not fit is not applied: there is no frame for it, or one that
    is cut short. -/
theorem small_of_called {frame : Frame} (framed : deltaFrame P p d = some frame)
    (called : openCall P receiver frame = some (d.pathHash,d.data)) : d.data.length ≤ maxDeltaSize := by
  rw [deltaFrame] at framed
  split at framed
  · cases framed
  · next fits =>
    cases framed
    rw [openCall] at called
    split at called
    · have length := congrArg List.length (Prod.mk.inj (Option.some.inj called)).2
      simp only [body,List.length_take,List.length_drop,buildSignedDelta_length] at length fits
      rw [UInt16.toNat_ofNat'] at length fits
      simp only [maxDeltaSize,maxPacketSize,packetHeaderSize,frameHeaderSize,StateDeltaFrame.minWireSize,
        StateDeltaFrame.baseWireSize,signatureSize] at *
      omega
    · cases called

theorem called_iff_small (signs : ∀ m, P.verify p.keys.publicKey (P.sign p.keys.secretKey m) m = true)
    (known : receiver.peerKeys[p.nodeId]? = some p.keys.publicKey) :
    (deltaFrame P p d).bind (openCall P receiver) = some (d.pathHash,d.data) ↔ d.data.length ≤ maxDeltaSize := by
  constructor
  · intro called
    obtain ⟨frame,framed,called⟩ := Option.bind_eq_some_iff.mp called
    exact small_of_called framed called
  · intro small
    rw [deltaFrame_small small]
    exact openCall_signed signs known

end

/-- For which deltas nothing is lost on the way. -/
theorem lossless_iff (P : Primitives) (p : Peer) (mc : ManagedConnection) (clock : Nat → Nat)
    (deltas : List PendingDelta) (receiver : Peer) (link : ManagedConnection)
    (signs : ∀ m, P.verify p.keys.publicKey (P.sign p.keys.secretKey m) m = true)
    (known : receiver.peerKeys[p.nodeId]? = some p.keys.publicKey) (noControl : receiver.accessControl = false) :
    Lossless P p mc clock deltas receiver link ↔ ∀ d ∈ deltas, d.data.length ≤ maxDeltaSize := by
  obtain ⟨frames,sizes,count⟩ := sendDeltasTo_frames P p mc clock deltas
  have reached : ∀ is : List Incoming, is.map (·.data) = (p.sendDeltasTo P mc clock deltas).sent.map (·.1) →
      deltasReached P link receiver is = deltas.filterMap (fun d => (deltaFrame P p d).bind (openCall P receiver)) := by
    intro is same
    have wire : is.flatMap (fun i => dataFrames P i.data) = deltas.filterMap (deltaFrame P p) := by
      have data := congrArg (List.flatMap (dataFrames P)) same
      rw [← frames]
      simpa only [List.flatMap_map] using data
    rw [deltasReached_open noControl,wire,List.filterMap_filterMap]
  constructor
  · rintro ⟨exact,_⟩
    let is : List Incoming := (p.sendDeltasTo P mc clock deltas).sent.map (fun pkt => ⟨pkt.1,clock⟩)
    have same : is.map (·.data) = (p.sendDeltasTo P mc clock deltas).sent.map (·.1) := by simp [is]
    have called := List.filterMap_eq_map_iff_forall_eq_some.mp ((reached is same).symm.trans (exact is same))
    exact fun d member => (called_iff_small signs known).mp (called d member)
  · intro small
    refine ⟨fun is same => ?_,sizes,?_⟩
    · rw [reached is same]
      exact List.filterMap_eq_map_iff_forall_eq_some.mpr
        (fun d member => (called_iff_small signs known).mpr (small d member))
    · have all : deltas.filterMap (deltaFrame P p) = deltas.map (fun d => ⟨.stateDelta,p.buildSignedDelta P d⟩) :=
        List.filterMap_eq_map_iff_forall_eq_some.mpr (fun d member => deltaFrame_small (small d member))
      rw [frames,count,all,List.countP_map]
      exact (List.countP_eq_length.mpr (fun _ _ => rfl)).symm

/-- Two nodes that know each other's keys. -/
def sender : Peer := Peer.new 1 (plainKeys 1)
def receiver : Peer := (Peer.new 2 (plainKeys 2)).registerPeerKey 1 (plainKeys 1).publicKey

/-- A delta of `n` bytes. -/
def deltaOf (n : Nat) : PendingDelta := ⟨1,.lwwRegister,.reliable,List.replicate n 0⟩

theorem lossless_small_deltas :
    Lossless plain sender plainLink (fun n => n) [deltaOf 1000,deltaOf 1000] receiver plainLink :=
  (lossless_iff plain sender plainLink (fun n => n) [deltaOf 1000,deltaOf 1000] receiver plainLink
    (fun m => (plain_genuine 1 m _).mpr rfl) (by decide +kernel) rfl).mpr (by decide +kernel)

/-- One byte more than fits: the delta is counted, and the packet that is sent has
    no frame. -/
theorem loses_large_delta : ¬ Lossless plain sender plainLink (fun n => n) [deltaOf 1362] receiver plainLink := by
  rintro ⟨_,_,count⟩
  revert count
  decide +kernel

end PeerSend
end Rom
