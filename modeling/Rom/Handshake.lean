import Rom.Connection

/-!
The packets that open, close and probe a connection (`handshake.h`,
`handshake.cpp`). Each is built with one frame; of a received packet the first
frame of these kinds counts (`processPacket`), and what the packet was says what
it did to the connection (`processPacket_effect`).
-/
namespace Rom
namespace Handshake

inductive HandshakeResult where
  | connectReceived
  | acceptReceived
  | closeReceived
  | pingReceived
  | pongReceived
  | notHandshake
  | invalid
  deriving DecidableEq, Repr

/-- What a packet was, and the frame that says so. -/
structure HandshakeEvent where
  result : HandshakeResult
  connect : ConnectFrame := ⟨0,0,0⟩
  accept : AcceptFrame := ⟨0,0⟩
  close : CloseFrame := ⟨.normal⟩
  ping : PingFrame := ⟨0,0⟩
  deriving DecidableEq, Repr

/-- A packet with one frame, and the connection after its number is taken. -/
def buildPacket (P : Primitives) (conn : Connection) (packetType : PacketType) (connectionId : UInt16) (now : Nat)
    (type : FrameType) (payload : Bytes) : Bytes × Connection :=
  let (pktNum,conn) := conn.nextSendPacketNumber
  let enc : PacketEncoder :=
    { packetType := packetType
      connectionId := connectionId
      packetNumber := pktNum
      timestampUs := conn.elapsedUs now }
  let enc := (enc.addFrame type payload (UInt16.ofNat payload.length)).getD enc
  ((enc.finalize P).1,conn)

/-- No connection id is assigned yet. -/
def buildConnectPacket (P : Primitives) (conn : Connection) (now : Nat) : Bytes × Connection :=
  buildPacket P conn .handshake 0 now .connect
    (ConnectFrame.mk connectMagic protocolVersion conn.config.maxFrameSize).encode

/-- The clock is read for the packet and once more for the frame. -/
def buildAcceptPacket (P : Primitives) (conn : Connection) (now later : Nat) : Bytes × Connection :=
  buildPacket P conn .handshake conn.remoteConnId now .accept
    (AcceptFrame.mk conn.localConnId (conn.elapsedUs later)).encode

def buildClosePacket (P : Primitives) (conn : Connection) (reason : CloseReason) (now : Nat) : Bytes × Connection :=
  buildPacket P conn .handshake conn.remoteConnId now .close (CloseFrame.mk reason).encode

def buildPingPacket (P : Primitives) (conn : Connection) (pingId : UInt32) (now later : Nat) : Bytes × Connection :=
  buildPacket P conn .control conn.remoteConnId now .ping (PingFrame.mk pingId (conn.elapsedUs later)).encode

def buildPongPacket (P : Primitives) (conn : Connection) (pingId echoTimestamp : UInt32) (now : Nat) : Bytes × Connection :=
  buildPacket P conn .control conn.remoteConnId now .pong (PingFrame.mk pingId echoTimestamp).encode

/-! ### Receiving -/

def onConnectFrame (conn : Connection) (cf : ConnectFrame) : HandshakeEvent × Connection :=
  if cf.magic ≠ connectMagic then ({ result := .invalid },conn)
  else ({ result := .connectReceived, connect := cf },conn.onConnect cf.version cf.maxFrameSize)

/-- What the connection makes of it is not looked at. -/
def onAcceptFrame (conn : Connection) (af : AcceptFrame) : HandshakeEvent × Connection :=
  ({ result := .acceptReceived, accept := af },(conn.onAccept af.assignedConnId af.serverTimestampUs).1)

def onCloseFrame (conn : Connection) (cf : CloseFrame) : HandshakeEvent × Connection :=
  ({ result := .closeReceived, close := cf },conn.onClose cf.reason)

def onPingFrame (conn : Connection) (pf : PingFrame) : HandshakeEvent × Connection :=
  ({ result := .pingReceived, ping := pf },conn)

def onPongFrame (conn : Connection) (pf : PingFrame) : HandshakeEvent × Connection :=
  ({ result := .pongReceived, ping := pf },conn)

/-- A frame that cannot be read makes the packet invalid. -/
def onFrame {F : Type} (conn : Connection) (decoded : Option F) (read : Connection → F → HandshakeEvent × Connection) :
    HandshakeEvent × Connection :=
  match decoded with
  | none => ({ result := .invalid },conn)
  | some f => read conn f

/-- What a frame comes to; nothing when it is of another kind. -/
def processFrame (conn : Connection) (frame : Frame) : Option (HandshakeEvent × Connection) :=
  match frame.type with
  | .connect => some (onFrame conn (ConnectFrame.decode frame.payload) onConnectFrame)
  | .accept => some (onFrame conn (AcceptFrame.decode frame.payload) onAcceptFrame)
  | .close => some (onFrame conn (CloseFrame.decode frame.payload) onCloseFrame)
  | .ping => some (onFrame conn (PingFrame.decode frame.payload) onPingFrame)
  | .pong => some (onFrame conn (PingFrame.decode frame.payload) onPongFrame)
  | _ => none

/-- The loop over the frames, which ends at the first that counts. -/
def processFrames (conn : Connection) (frames : List Frame) : HandshakeEvent × Connection :=
  (frames.findSome? (processFrame conn)).getD ({ result := .notHandshake },conn)

/-- What a packet was, and the connection after it. -/
def processPacket (P : Primitives) (conn : Connection) (data : Bytes) : HandshakeEvent × Connection :=
  match PacketDecoder.ofPacket data with
  | none => ({ result := .invalid },conn)
  | some d =>
    if !d.verifyChecksum P then ({ result := .invalid },conn)
    else processFrames (conn.updateRecvPacketNumber d.header.packetNumber) d.frames

/-- What a packet does to the connection besides its number. -/
def HandshakeEvent.effect (event : HandshakeEvent) (conn : Connection) : Connection :=
  match event.result with
  | .connectReceived => conn.onConnect event.connect.version event.connect.maxFrameSize
  | .acceptReceived => (conn.onAccept event.accept.assignedConnId event.accept.serverTimestampUs).1
  | .closeReceived => conn.onClose event.close.reason
  | _ => conn

theorem onFrame_effect {F : Type} (conn : Connection) (decoded : Option F)
    {read : Connection → F → HandshakeEvent × Connection} (effect : ∀ f, (read conn f).2 = (read conn f).1.effect conn) :
    (onFrame conn decoded read).2 = (onFrame conn decoded read).1.effect conn := by
  cases decoded with
  | none => rfl
  | some f => exact effect f

theorem processFrame_effect {conn : Connection} {frame : Frame} {result : HandshakeEvent × Connection}
    (processed : processFrame conn frame = some result) : result.2 = result.1.effect conn := by
  have connect : ∀ cf, (onConnectFrame conn cf).2 = (onConnectFrame conn cf).1.effect conn := by
    intro cf
    rw [onConnectFrame]
    split <;> rfl
  rw [processFrame] at processed
  split at processed
  · exact Option.some.inj processed ▸ onFrame_effect conn _ connect
  · exact Option.some.inj processed ▸ onFrame_effect conn _ (fun _ => rfl)
  · exact Option.some.inj processed ▸ onFrame_effect conn _ (fun _ => rfl)
  · exact Option.some.inj processed ▸ onFrame_effect conn _ (fun _ => rfl)
  · exact Option.some.inj processed ▸ onFrame_effect conn _ (fun _ => rfl)
  · cases processed

theorem processFrames_effect (conn : Connection) (frames : List Frame) :
    (processFrames conn frames).2 = (processFrames conn frames).1.effect conn := by
  rw [processFrames]
  cases found : frames.findSome? (processFrame conn) with
  | none => rfl
  | some result =>
    obtain ⟨frame,_,processed⟩ := List.exists_of_findSome?_eq_some found
    exact processFrame_effect processed

theorem updateRecvPacketNumber_eq (conn : Connection) (pktNum : UInt32) :
    ∃ n, conn.updateRecvPacketNumber pktNum = { conn with recvPktNum := n } := by
  rw [Connection.updateRecvPacketNumber]
  split
  · exact ⟨pktNum,rfl⟩
  · exact ⟨conn.recvPktNum,rfl⟩

/-- What a packet was says what it did. -/
theorem processPacket_effect (P : Primitives) (conn : Connection) (data : Bytes) :
    ∃ n, (processPacket P conn data).2 = (processPacket P conn data).1.effect { conn with recvPktNum := n } := by
  rw [processPacket]
  cases PacketDecoder.ofPacket data with
  | none => exact ⟨conn.recvPktNum,rfl⟩
  | some d =>
    dsimp only
    split
    · exact ⟨conn.recvPktNum,rfl⟩
    · obtain ⟨n,same⟩ := updateRecvPacketNumber_eq conn d.header.packetNumber
      rw [same]
      exact ⟨n,processFrames_effect _ _⟩

/-! ### Built and received -/

/-- A packet with one frame is accepted and gives the frame back. -/
theorem ofPacket_buildPacket (P : Primitives) (conn : Connection) (packetType : PacketType) (connectionId : UInt16)
    (now : Nat)
    (type : FrameType) (payload : Bytes) (small : payload.length ≤ 1024) :
    ∃ d, PacketDecoder.ofPacket (buildPacket P conn packetType connectionId now type payload).1 = some d ∧
      d.verifyChecksum P = true ∧ d.header.packetType = packetType ∧ d.frames = [⟨type,payload⟩] := by
  have length : (UInt16.ofNat payload.length).toNat = payload.length := by
    rw [UInt16.toNat_ofNat']
    exact Nat.mod_eq_of_lt (by omega)
  have room : ¬ packetHeaderSize + (frameHeaderSize + payload.length) > maxPacketSize := by
    rw [packetHeaderSize,frameHeaderSize,maxPacketSize]
    omega
  let enc : PacketEncoder :=
    { payload := Frame.wire ⟨type,payload⟩
      packetType := packetType
      connectionId := connectionId
      packetNumber := conn.sendPktNum
      timestampUs := conn.elapsedUs now }
  have built : (buildPacket P conn packetType connectionId now type payload).1 = (enc.finalize P).1 := by
    simp only [buildPacket,PacketEncoder.addFrame,PacketEncoder.cursor,List.length_nil,Nat.add_zero,length,if_neg room,
      Option.getD_some,List.nil_append,List.take_length]
    rfl
  have wire : enc.payload.length = frameHeaderSize + payload.length := Frame.wire_length ⟨type,payload⟩
  rw [built]
  refine PacketEncoder.frames_finalize P enc [⟨type,payload⟩] (by simp [enc]) ?_ ?_
  · intro f member
    rw [List.mem_singleton.mp member]
    show payload.length < 2^16
    omega
  · rw [wire,frameHeaderSize]
    omega

/-- What the other side makes of a packet with one frame. -/
theorem processPacket_buildPacket (P : Primitives) (conn sender : Connection) (packetType : PacketType)
    (connectionId : UInt16) (now : Nat) (type : FrameType) (payload : Bytes) (small : payload.length ≤ 1024) :
    ∃ n, processPacket P conn (buildPacket P sender packetType connectionId now type payload).1 =
      processFrames { conn with recvPktNum := n } [⟨type,payload⟩] := by
  obtain ⟨d,accepted,checked,_,frames⟩ := ofPacket_buildPacket P sender packetType connectionId now type payload small
  obtain ⟨n,same⟩ := updateRecvPacketNumber_eq conn d.header.packetNumber
  refine ⟨n,?_⟩
  rw [processPacket,accepted]
  simp only [checked,Bool.not_true,Bool.false_eq_true,if_false,frames,same]

theorem processPacket_connect (P : Primitives) (conn sender : Connection) (now : Nat) :
    ∃ n, processPacket P conn (buildConnectPacket P sender now).1 =
      ({ result := .connectReceived, connect := ⟨connectMagic,protocolVersion,sender.config.maxFrameSize⟩ },
        { conn with recvPktNum := n }.onConnect protocolVersion sender.config.maxFrameSize) := by
  obtain ⟨n,received⟩ := processPacket_buildPacket P conn sender .handshake 0 now .connect
    (ConnectFrame.mk connectMagic protocolVersion sender.config.maxFrameSize).encode (by decide : 7 ≤ 1024)
  refine ⟨n,received.trans ?_⟩
  simp [processFrames,processFrame,ConnectFrame.decode_encode,onFrame,onConnectFrame]

theorem processPacket_accept (P : Primitives) (conn sender : Connection) (now later : Nat) :
    ∃ n, processPacket P conn (buildAcceptPacket P sender now later).1 =
      ({ result := .acceptReceived, accept := ⟨sender.localConnId,sender.elapsedUs later⟩ },
        ({ conn with recvPktNum := n }.onAccept sender.localConnId (sender.elapsedUs later)).1) := by
  obtain ⟨n,received⟩ := processPacket_buildPacket P conn sender .handshake sender.remoteConnId now .accept
    (AcceptFrame.mk sender.localConnId (sender.elapsedUs later)).encode (by decide : 6 ≤ 1024)
  refine ⟨n,received.trans ?_⟩
  simp [processFrames,processFrame,AcceptFrame.decode_encode,onFrame,onAcceptFrame]

end Handshake
end Rom
