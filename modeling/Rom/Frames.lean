import Rom.Bytes

/-!
Frames and what travels in them (`frame_types.h`, `frame.h`, `frame.cpp`). The
enumerations have a fixed underlying byte, and a cast from the wire keeps a byte
that names none of the constants; such a value is `other`. An enumerator written
as its byte is read back (`FrameType.ofByte_toByte` and its like), and so is the
head of a delta (`StateDeltaFrame.decode_encode`).
-/
namespace Rom

inductive FrameType where
  | stateDeclare
  | stateSnapshot
  | stateDelta
  | stateSubscribe
  | stateUnsubscribe
  | credit
  | ack
  | nack
  | capabilityGrant
  | capabilityRevoke
  | clockSync
  | ping
  | pong
  | connect
  | accept
  | close
  | routeAnnounce
  | other (code : UInt8) (unnamed : code = 0 ∨ 0x11 < code)
  deriving DecidableEq, Repr

namespace FrameType

def toByte : FrameType → UInt8
  | stateDeclare => 0x01
  | stateSnapshot => 0x02
  | stateDelta => 0x03
  | stateSubscribe => 0x04
  | stateUnsubscribe => 0x05
  | credit => 0x06
  | ack => 0x07
  | nack => 0x08
  | capabilityGrant => 0x09
  | capabilityRevoke => 0x0A
  | clockSync => 0x0B
  | ping => 0x0C
  | pong => 0x0D
  | connect => 0x0E
  | accept => 0x0F
  | close => 0x10
  | routeAnnounce => 0x11
  | other code _ => code

/-- `static_cast` from a byte. -/
def ofByte (b : UInt8) : FrameType :=
  if unnamed : b = 0 ∨ 0x11 < b then other b unnamed
  else if b = 0x01 then stateDeclare
  else if b = 0x02 then stateSnapshot
  else if b = 0x03 then stateDelta
  else if b = 0x04 then stateSubscribe
  else if b = 0x05 then stateUnsubscribe
  else if b = 0x06 then credit
  else if b = 0x07 then ack
  else if b = 0x08 then nack
  else if b = 0x09 then capabilityGrant
  else if b = 0x0A then capabilityRevoke
  else if b = 0x0B then clockSync
  else if b = 0x0C then ping
  else if b = 0x0D then pong
  else if b = 0x0E then connect
  else if b = 0x0F then accept
  else if b = 0x10 then close
  else routeAnnounce

@[simp] theorem ofByte_toByte (t : FrameType) : ofByte t.toByte = t := by
  cases t with
  | other code unnamed => simp [toByte,ofByte,unnamed]
  | _ => decide

theorem toByte_ofByte (b : UInt8) : (ofByte b).toByte = b := by
  have all : ∀ i : Fin 256, (ofByte (UInt8.ofNat i.val)).toByte = UInt8.ofNat i.val := by decide +kernel
  simpa using all ⟨b.toNat,b.toNat_lt⟩

end FrameType

inductive Reliability where
  | unreliable
  | bestEffort
  | reliable
  | other (code : UInt8) (unnamed : 0x02 < code)
  deriving DecidableEq, Repr

namespace Reliability

def toByte : Reliability → UInt8
  | unreliable => 0x00
  | bestEffort => 0x01
  | reliable => 0x02
  | other code _ => code

/-- `static_cast` from a byte. -/
def ofByte (b : UInt8) : Reliability :=
  if unnamed : 0x02 < b then other b unnamed
  else if b = 0x00 then unreliable
  else if b = 0x01 then bestEffort
  else reliable

@[simp] theorem ofByte_toByte (r : Reliability) : ofByte r.toByte = r := by
  cases r with
  | other code unnamed => simp [toByte,ofByte,unnamed]
  | _ => decide

end Reliability

inductive CrdtType where
  | none
  | lwwRegister
  | gCounter
  | pnCounter
  | orSet
  | mvRegister
  | rga
  | other (code : UInt8) (unnamed : 0x06 < code)
  deriving DecidableEq, Repr

namespace CrdtType

def toByte : CrdtType → UInt8
  | none => 0x00
  | lwwRegister => 0x01
  | gCounter => 0x02
  | pnCounter => 0x03
  | orSet => 0x04
  | mvRegister => 0x05
  | rga => 0x06
  | other code _ => code

/-- `static_cast` from a byte. -/
def ofByte (b : UInt8) : CrdtType :=
  if unnamed : 0x06 < b then other b unnamed
  else if b = 0x00 then none
  else if b = 0x01 then lwwRegister
  else if b = 0x02 then gCounter
  else if b = 0x03 then pnCounter
  else if b = 0x04 then orSet
  else if b = 0x05 then mvRegister
  else rga

@[simp] theorem ofByte_toByte (t : CrdtType) : ofByte t.toByte = t := by
  cases t with
  | other code unnamed => simp [toByte,ofByte,unnamed]
  | _ => decide

end CrdtType

inductive PacketType where
  | data
  | control
  | handshake
  | other (code : UInt8) (unnamed : code = 0 ∨ 0x03 < code)
  deriving DecidableEq, Repr

namespace PacketType

def toByte : PacketType → UInt8
  | data => 0x01
  | control => 0x02
  | handshake => 0x03
  | other code _ => code

/-- `static_cast` from a byte. -/
def ofByte (b : UInt8) : PacketType :=
  if unnamed : b = 0 ∨ 0x03 < b then other b unnamed
  else if b = 0x01 then data
  else if b = 0x02 then control
  else handshake

@[simp] theorem ofByte_toByte (t : PacketType) : ofByte t.toByte = t := by
  cases t with
  | other code unnamed => simp [toByte,ofByte,unnamed]
  | _ => decide

end PacketType

/-- `FRAME_HEADER_SIZE`. -/
def frameHeaderSize : Nat := 3
def signatureSize : Nat := 64

/-- A frame; its payload has as many bytes as its header says. -/
structure Frame where
  type : FrameType
  payload : Bytes
  deriving DecidableEq, Repr

/-- `CONNECT_MAGIC`. -/
def connectMagic : UInt32 := 0x50524F43

inductive CloseReason where
  | normal
  | timeout
  | protocolError
  | authFailure
  | goingAway
  | other (code : UInt8) (unnamed : 0x04 < code)
  deriving DecidableEq, Repr

namespace CloseReason

def toByte : CloseReason → UInt8
  | normal => 0x00
  | timeout => 0x01
  | protocolError => 0x02
  | authFailure => 0x03
  | goingAway => 0x04
  | other code _ => code

/-- `static_cast` from a byte. -/
def ofByte (b : UInt8) : CloseReason :=
  if unnamed : 0x04 < b then other b unnamed
  else if b = 0x00 then normal
  else if b = 0x01 then timeout
  else if b = 0x02 then protocolError
  else if b = 0x03 then authFailure
  else goingAway

end CloseReason

structure ConnectFrame where
  magic : UInt32
  version : UInt8
  maxFrameSize : UInt16
  deriving DecidableEq, Repr

namespace ConnectFrame

def wireSize : Nat := 7

def encode (f : ConnectFrame) : Bytes := writeU32 f.magic ++ [f.version] ++ writeU16 f.maxFrameSize

def decode (buf : Bytes) : Option ConnectFrame :=
  if buf.length < wireSize then none else some ⟨readU32 buf,byteAt buf 4,readU16 (buf.drop 5)⟩

theorem decode_encode (f : ConnectFrame) : decode f.encode = some f := by
  have magic : readU32 f.encode = f.magic := readU32_write f.magic _
  have size : readU16 (f.encode.drop 5) = f.maxFrameSize := readU16_write f.maxFrameSize []
  have long : ¬ f.encode.length < wireSize := Nat.lt_irrefl wireSize
  rw [decode,if_neg long,magic,size]
  rfl

end ConnectFrame

structure AcceptFrame where
  assignedConnId : UInt16
  serverTimestampUs : UInt32
  deriving DecidableEq, Repr

namespace AcceptFrame

def wireSize : Nat := 6

def encode (f : AcceptFrame) : Bytes := writeU16 f.assignedConnId ++ writeU32 f.serverTimestampUs

def decode (buf : Bytes) : Option AcceptFrame :=
  if buf.length < wireSize then none else some ⟨readU16 buf,readU32 (buf.drop 2)⟩

theorem decode_encode (f : AcceptFrame) : decode f.encode = some f := by
  have id : readU16 f.encode = f.assignedConnId := readU16_write f.assignedConnId _
  have timestamp : readU32 (f.encode.drop 2) = f.serverTimestampUs := readU32_write f.serverTimestampUs []
  have long : ¬ f.encode.length < wireSize := Nat.lt_irrefl wireSize
  rw [decode,if_neg long,id,timestamp]

end AcceptFrame

structure CloseFrame where
  reason : CloseReason
  deriving DecidableEq, Repr

namespace CloseFrame

def wireSize : Nat := 1

def encode (f : CloseFrame) : Bytes := [f.reason.toByte]

def decode (buf : Bytes) : Option CloseFrame :=
  if buf.length < wireSize then none else some ⟨.ofByte (byteAt buf 0)⟩

end CloseFrame

/-- A ping, or the pong that answers it. -/
structure PingFrame where
  pingId : UInt32
  timestampUs : UInt32
  deriving DecidableEq, Repr

namespace PingFrame

def wireSize : Nat := 8

def encode (f : PingFrame) : Bytes := writeU32 f.pingId ++ writeU32 f.timestampUs

def decode (buf : Bytes) : Option PingFrame :=
  if buf.length < wireSize then none else some ⟨readU32 buf,readU32 (buf.drop 4)⟩

theorem decode_encode (f : PingFrame) : decode f.encode = some f := by
  have id : readU32 f.encode = f.pingId := readU32_write f.pingId _
  have timestamp : readU32 (f.encode.drop 4) = f.timestampUs := readU32_write f.timestampUs []
  have long : ¬ f.encode.length < wireSize := Nat.lt_irrefl wireSize
  rw [decode,if_neg long,id,timestamp]

end PingFrame

structure StateDeltaFrame where
  pathHash : UInt32
  crdtType : CrdtType
  reliability : Reliability
  authorNodeId : UInt16
  deriving DecidableEq, Repr

namespace StateDeltaFrame

def baseWireSize : Nat := 8
def minWireSize : Nat := baseWireSize + signatureSize

/-- `StateDeltaFrame{}`. -/
def zero : StateDeltaFrame := ⟨0,.none,.unreliable,0⟩

def encode (f : StateDeltaFrame) : Bytes :=
  writeU32 f.pathHash ++ [f.crdtType.toByte,f.reliability.toByte] ++ writeU16 f.authorNodeId

def decode (buf : Bytes) : Option StateDeltaFrame :=
  if buf.length < baseWireSize then none
  else some ⟨readU32 buf,.ofByte (byteAt buf 4),.ofByte (byteAt buf 5),readU16 (buf.drop 6)⟩

@[simp] theorem encode_length (f : StateDeltaFrame) : f.encode.length = baseWireSize := rfl

theorem decode_encode (f : StateDeltaFrame) (rest : Bytes) : decode (f.encode ++ rest) = some f := by
  have short : ¬ (f.encode ++ rest).length < baseWireSize := by
    rw [List.length_append,encode_length]
    omega
  have hash : readU32 (f.encode ++ rest) = f.pathHash := readU32_write f.pathHash _
  have type : byteAt (f.encode ++ rest) 4 = f.crdtType.toByte := rfl
  have reliability : byteAt (f.encode ++ rest) 5 = f.reliability.toByte := rfl
  have author : readU16 ((f.encode ++ rest).drop 6) = f.authorNodeId := readU16_write f.authorNodeId rest
  rw [decode,if_neg short,hash,type,reliability,author,CrdtType.ofByte_toByte,Reliability.ofByte_toByte]

end StateDeltaFrame

structure StateSnapshotFrame where
  pathHash : UInt32
  crdtType : CrdtType
  authorNodeId : UInt16
  deriving DecidableEq, Repr

namespace StateSnapshotFrame

def baseWireSize : Nat := 7
def minWireSize : Nat := baseWireSize + signatureSize

/-- `StateSnapshotFrame{}`. -/
def zero : StateSnapshotFrame := ⟨0,.none,0⟩

def encode (f : StateSnapshotFrame) : Bytes :=
  writeU32 f.pathHash ++ [f.crdtType.toByte] ++ writeU16 f.authorNodeId

def decode (buf : Bytes) : Option StateSnapshotFrame :=
  if buf.length < baseWireSize then none
  else some ⟨readU32 buf,.ofByte (byteAt buf 4),readU16 (buf.drop 5)⟩

end StateSnapshotFrame

structure CapabilityRevokeFrame where
  tokenId : UInt32
  issuerNodeId : UInt16
  deriving DecidableEq, Repr

namespace CapabilityRevokeFrame

def wireSize : Nat := 6

def encode (f : CapabilityRevokeFrame) : Bytes := writeU32 f.tokenId ++ writeU16 f.issuerNodeId

def decode (buf : Bytes) : Option CapabilityRevokeFrame :=
  if buf.length < wireSize then none else some ⟨readU32 buf,readU16 (buf.drop 4)⟩

end CapabilityRevokeFrame

structure RouteAnnounceFrame where
  pathHash : UInt32
  announcingNodeId : UInt16
  deriving DecidableEq, Repr

namespace RouteAnnounceFrame

def wireSize : Nat := 6

def encode (f : RouteAnnounceFrame) : Bytes := writeU32 f.pathHash ++ writeU16 f.announcingNodeId

def decode (buf : Bytes) : Option RouteAnnounceFrame :=
  if buf.length < wireSize then none else some ⟨readU32 buf,readU16 (buf.drop 4)⟩

end RouteAnnounceFrame

end Rom
