import Rom.Frames
import Rom.Crypto

/-!
Packets (`packet.h`, `packet.cpp`, `codec.h`, `codec.cpp`): a header of 16 bytes
and frames behind it, each with a header of 3 bytes. The encoder collects frames
as long as they fit a packet; the decoder hands them out again. A finished packet
is accepted and gives back its frames (`frames_finalize`).
-/
namespace Rom

/-- `PACKET_HEADER_SIZE`. -/
def packetHeaderSize : Nat := 16
/-- `MAX_PACKET_SIZE`. -/
def maxPacketSize : Nat := 1452
/-- `PROTOCOL_VERSION`. -/
def protocolVersion : UInt8 := 1
/-- `FLAG_CHECKSUM`. -/
def flagChecksum : UInt8 := 0x08

def xxhash16 (P : Primitives) (p : Bytes) : UInt16 := (P.xxhash32 p).toUInt16

structure PacketHeader where
  version : UInt8
  flags : UInt8
  packetType : PacketType
  connectionId : UInt16
  packetNumber : UInt32
  timestampUs : UInt32
  payloadLength : UInt16
  checksum : UInt16
  deriving DecidableEq, Repr

namespace PacketHeader

def makeVersionFlags (version flags : UInt8) : UInt8 := (version <<< 4) ||| (flags &&& 0x0F)

def encode (h : PacketHeader) : Bytes :=
  [makeVersionFlags h.version h.flags,h.packetType.toByte] ++ writeU16 h.connectionId ++ writeU32 h.packetNumber ++
    writeU32 h.timestampUs ++ writeU16 h.payloadLength ++ writeU16 h.checksum

def decode (buf : Bytes) : Option PacketHeader :=
  if buf.length < packetHeaderSize then none
  else
    some
      { version := (byteAt buf 0 >>> 4) &&& 0x0F
        flags := byteAt buf 0 &&& 0x0F
        packetType := .ofByte (byteAt buf 1)
        connectionId := readU16 (buf.drop 2)
        packetNumber := readU32 (buf.drop 4)
        timestampUs := readU32 (buf.drop 8)
        payloadLength := readU16 (buf.drop 12)
        checksum := readU16 (buf.drop 14) }

/-- The hash of the header, without its checksum, and that of the payload. -/
def computeChecksum (P : Primitives) (packet : Bytes) : UInt16 :=
  if packet.length < packetHeaderSize then 0
  else
    let h1 := xxhash16 P (packet.take 14 ++ [0,0])
    if packet.length > packetHeaderSize then h1 ^^^ xxhash16 P (packet.drop packetHeaderSize) else h1

end PacketHeader

/-- A packet in the making. Its buffer is kept as the frames written so far; the
    cursor is behind them. -/
structure PacketEncoder where
  payload : Bytes := []
  packetType : PacketType := .data
  connectionId : UInt16 := 0
  packetNumber : UInt32 := 0
  timestampUs : UInt32 := 0
  flags : UInt8 := flagChecksum
  deriving DecidableEq, Repr

namespace PacketEncoder

def cursor (enc : PacketEncoder) : Nat := packetHeaderSize + enc.payload.length

def payloadSize (enc : PacketEncoder) : Nat := enc.cursor - packetHeaderSize

def setPacketType (enc : PacketEncoder) (type : PacketType) : PacketEncoder := { enc with packetType := type }
def setConnectionId (enc : PacketEncoder) (connId : UInt16) : PacketEncoder := { enc with connectionId := connId }
def setPacketNumber (enc : PacketEncoder) (pktNum : UInt32) : PacketEncoder := { enc with packetNumber := pktNum }
def setTimestamp (enc : PacketEncoder) (timestampUs : UInt32) : PacketEncoder := { enc with timestampUs := timestampUs }

/-- Appends a frame of `payloadLen` bytes; nothing when the packet is full. -/
def addFrame (enc : PacketEncoder) (type : FrameType) (payload : Bytes) (payloadLen : UInt16) : Option PacketEncoder :=
  if enc.cursor + (frameHeaderSize + payloadLen.toNat) > maxPacketSize then none
  else
    some { enc with
      payload := enc.payload ++ (type.toByte :: writeU16 payloadLen ++ payload.take payloadLen.toNat) }

/-- The header of the finished packet, its checksum still 0. -/
def header (enc : PacketEncoder) : PacketHeader :=
  { version := protocolVersion
    flags := enc.flags
    packetType := enc.packetType
    connectionId := enc.connectionId
    packetNumber := enc.packetNumber
    timestampUs := enc.timestampUs
    payloadLength := UInt16.ofNat enc.payloadSize
    checksum := 0 }

/-- The packet, and the encoder without frames. -/
def finalize (P : Primitives) (enc : PacketEncoder) : Bytes × PacketEncoder :=
  let buf := enc.header.encode ++ enc.payload
  let cksum := PacketHeader.computeChecksum P buf
  (buf.take 14 ++ writeU16 cksum ++ buf.drop packetHeaderSize,{ enc with payload := [] })

end PacketEncoder

/-- The decoder; `data` is the buffer of the last accepted packet, nothing before
    there is one. -/
structure PacketDecoder where
  header : PacketHeader := ⟨0,0,.ofByte 0,0,0,0,0,0⟩
  data : Option Bytes := none
  dataLen : Nat := 0
  frameCursor : Nat := 0
  deriving DecidableEq, Repr

namespace PacketDecoder

/-- The bytes at the decoder's pointer. -/
def bytes (d : PacketDecoder) : Bytes := d.data.getD []

/-- A packet shorter than its header says is refused, but its header is kept. -/
def parse (d : PacketDecoder) (data : Bytes) : PacketDecoder × Bool :=
  if data.length < packetHeaderSize then (d,false)
  else
    match PacketHeader.decode data with
    | none => (d,false)
    | some header =>
      let expected := packetHeaderSize + header.payloadLength.toNat
      if data.length < expected then ({ d with header := header },false)
      else (⟨header,some data,expected,0⟩,true)

/-- A new decoder for the bytes of a packet; nothing when they are refused. -/
def ofPacket (data : Bytes) : Option PacketDecoder :=
  let (d,ok) := parse {} data
  if ok then some d else none

def nextFrame (d : PacketDecoder) : Option (Frame × PacketDecoder) :=
  let payloadEnd := packetHeaderSize + d.header.payloadLength.toNat
  let absPos := packetHeaderSize + d.frameCursor
  if absPos + frameHeaderSize > payloadEnd then none
  else
    let length := (readU16 (d.bytes.drop (absPos + 1))).toNat
    if absPos + frameHeaderSize + length > payloadEnd then none
    else
      some (⟨.ofByte (byteAt (d.bytes.drop absPos) 0),(d.bytes.drop (absPos + frameHeaderSize)).take length⟩,
        { d with frameCursor := d.frameCursor + (frameHeaderSize + length) })

def resetFrameCursor (d : PacketDecoder) : PacketDecoder := { d with frameCursor := 0 }

def verifyChecksum (P : Primitives) (d : PacketDecoder) : Bool :=
  match d.data with
  | none => false
  | some data => PacketHeader.computeChecksum P (data.take d.dataLen) == d.header.checksum

/-- The frames that repeated calls of `nextFrame` return. -/
def framesLoop : Nat → PacketDecoder → List Frame
  | 0, _ => []
  | fuel+1, d =>
    match d.nextFrame with
    | none => []
    | some (frame,d) => frame :: framesLoop fuel d

/-- Each frame takes at least its header, so the payload bounds their number. -/
def frames (d : PacketDecoder) : List Frame := framesLoop d.header.payloadLength.toNat d

/-- A refused packet leaves its header or nothing, an accepted one all of it, whatever
    the decoder has seen before. -/
theorem parse_cases (data : Bytes) :
    (∀ d : PacketDecoder, ∃ header, d.parse data = ({ d with header := header },false)) ∨
    ∃ header : PacketHeader, packetHeaderSize + header.payloadLength.toNat ≤ data.length ∧
      ∀ d : PacketDecoder, d.parse data = (⟨header,some data,packetHeaderSize + header.payloadLength.toNat,0⟩,true) := by
  unfold parse
  split
  · exact .inl (fun d => ⟨d.header,rfl⟩)
  · cases PacketHeader.decode data with
    | none => exact .inl (fun d => ⟨d.header,rfl⟩)
    | some header =>
      dsimp only
      split
      · exact .inl (fun d => ⟨header,rfl⟩)
      · next room => exact .inr ⟨header,Nat.not_lt.mp room,fun d => rfl⟩

/-- The frame at the cursor, as far as the buffer holds it. -/
def frameAt (d : PacketDecoder) : Frame :=
  ⟨.ofByte (byteAt (d.bytes.drop (packetHeaderSize + d.frameCursor)) 0),
    (d.bytes.drop (packetHeaderSize + d.frameCursor + frameHeaderSize)).take
      (readU16 (d.bytes.drop (packetHeaderSize + d.frameCursor + 1))).toNat⟩

/-- Where the frame at the cursor ends in the payload, by its own header. -/
def frameEnd (d : PacketDecoder) : Nat :=
  d.frameCursor + (frameHeaderSize + (readU16 (d.bytes.drop (packetHeaderSize + d.frameCursor + 1))).toNat)

/-- The packet header decides only whether the frame at the cursor is taken. -/
theorem nextFrame_eq (d : PacketDecoder) :
    d.nextFrame = if frameEnd d ≤ d.header.payloadLength.toNat then some (frameAt d,{ d with frameCursor := frameEnd d })
      else none := by
  have ends : frameEnd d =
    d.frameCursor + (frameHeaderSize + (readU16 (d.bytes.drop (packetHeaderSize + d.frameCursor + 1))).toNat) := rfl
  simp only [nextFrame]
  split
  · rw [if_neg (show ¬ frameEnd d ≤ d.header.payloadLength.toNat by omega)]
  · split
    · rw [if_neg (show ¬ frameEnd d ≤ d.header.payloadLength.toNat by omega)]
    · rw [if_pos (show frameEnd d ≤ d.header.payloadLength.toNat by omega)]
      rfl

theorem nextFrame_eq_some {d d' : PacketDecoder} {frame : Frame} (next : d.nextFrame = some (frame,d')) :
    frameEnd d ≤ d.header.payloadLength.toNat ∧ frame = frameAt d ∧ d' = { d with frameCursor := frameEnd d } := by
  rw [nextFrame_eq] at next
  split at next
  · next room =>
    cases next
    exact ⟨room,rfl,rfl⟩
  · cases next

theorem nextFrame_eq_none {d : PacketDecoder} : d.nextFrame = none ↔ d.header.payloadLength.toNat < frameEnd d := by
  rw [nextFrame_eq]
  split
  · next room => exact iff_of_false (fun none => nomatch none) (Nat.not_lt.mpr room)
  · next ended => exact iff_of_true rfl (Nat.not_le.mp ended)

theorem nextFrame_advances {d d' : PacketDecoder} {frame : Frame} (next : d.nextFrame = some (frame,d')) :
    d'.header = d.header ∧ d.frameCursor < d'.frameCursor ∧ d'.frameCursor ≤ d.header.payloadLength.toNat := by
  obtain ⟨room,_,rfl⟩ := nextFrame_eq_some next
  refine ⟨rfl,?_,room⟩
  show d.frameCursor < frameEnd d
  rw [frameEnd,frameHeaderSize]
  omega

theorem nextFrame_none {d : PacketDecoder} (ended : d.header.payloadLength.toNat ≤ d.frameCursor) :
    d.nextFrame = none := by
  rw [nextFrame_eq_none,frameEnd,frameHeaderSize]
  omega

/-- More rounds than bytes change nothing. -/
theorem framesLoop_enough (n m : Nat) (d : PacketDecoder)
    (enough : d.header.payloadLength.toNat - d.frameCursor ≤ n)
    (enough' : d.header.payloadLength.toNat - d.frameCursor ≤ m) : framesLoop n d = framesLoop m d := by
  induction n generalizing m d with
  | zero =>
    have ended := nextFrame_none (d := d) (by omega)
    cases m with
    | zero => rfl
    | succ m => rw [framesLoop,framesLoop,ended]
  | succ n ih =>
    cases m with
    | zero =>
      have ended := nextFrame_none (d := d) (by omega)
      rw [framesLoop,framesLoop,ended]
    | succ m =>
      rw [framesLoop,framesLoop]
      cases next : d.nextFrame with
      | none => rfl
      | some r =>
        obtain ⟨same,later,_⟩ := nextFrame_advances next
        show r.1 :: _ = r.1 :: _
        rw [ih m r.2 (by rw [same]; omega) (by rw [same]; omega)]

/-- The loop as the source has it, without a bound on its rounds. -/
theorem frames_eq (d : PacketDecoder) :
    d.frames = match d.nextFrame with
      | none => []
      | some (frame,d') => frame :: d'.frames := by
  cases next : d.nextFrame with
  | none =>
    rw [frames]
    cases d.header.payloadLength.toNat with
    | zero => rfl
    | succ n => rw [framesLoop,next]
  | some r =>
    obtain ⟨same,later,within⟩ := nextFrame_advances next
    obtain ⟨n,size⟩ : ∃ n, d.header.payloadLength.toNat = n + 1 := ⟨d.header.payloadLength.toNat - 1,by omega⟩
    rw [frames,size,framesLoop,next]
    show r.1 :: _ = r.1 :: _
    rw [frames,framesLoop_enough n r.2.header.payloadLength.toNat r.2 (by rw [same]; omega) (by omega)]

end PacketDecoder

/-! ### Round trip -/

/-- A frame on the wire. -/
def Frame.wire (f : Frame) : Bytes := f.type.toByte :: writeU16 (UInt16.ofNat f.payload.length) ++ f.payload

theorem Frame.wire_length (f : Frame) : f.wire.length = frameHeaderSize + f.payload.length := by
  rw [Frame.wire,List.cons_append,List.length_cons,List.length_append,writeU16_length,frameHeaderSize]
  omega

namespace PacketHeader

@[simp] theorem encode_length (h : PacketHeader) : h.encode.length = packetHeaderSize := rfl

theorem versionOf_make (version flags : UInt8) : (makeVersionFlags version flags >>> 4) &&& 0x0F = version &&& 0x0F := by
  apply UInt8.eq_of_toBitVec_eq
  ext i inside
  simp only [makeVersionFlags]
  interval_cases i <;> simp

theorem flagsOf_make (version flags : UInt8) : makeVersionFlags version flags &&& 0x0F = flags &&& 0x0F := by
  apply UInt8.eq_of_toBitVec_eq
  ext i inside
  simp only [makeVersionFlags]
  interval_cases i <;> simp

/-- A header is read back, but for the upper halves of its version and flags. -/
theorem decode_encode (h : PacketHeader) (rest : Bytes) :
    decode (h.encode ++ rest) = some { h with version := h.version &&& 0x0F, flags := h.flags &&& 0x0F } := by
  have short : ¬ (h.encode ++ rest).length < packetHeaderSize := by
    rw [List.length_append,encode_length]
    omega
  have first : byteAt (h.encode ++ rest) 0 = makeVersionFlags h.version h.flags := rfl
  have type : byteAt (h.encode ++ rest) 1 = h.packetType.toByte := rfl
  have connection : readU16 ((h.encode ++ rest).drop 2) = h.connectionId := readU16_write _ _
  have number : readU32 ((h.encode ++ rest).drop 4) = h.packetNumber := readU32_write _ _
  have timestamp : readU32 ((h.encode ++ rest).drop 8) = h.timestampUs := readU32_write _ _
  have length : readU16 ((h.encode ++ rest).drop 12) = h.payloadLength := readU16_write _ _
  have checksum : readU16 ((h.encode ++ rest).drop 14) = h.checksum := readU16_write _ _
  rw [decode,if_neg short,first,type,connection,number,timestamp,length,checksum,versionOf_make,flagsOf_make,
    PacketType.ofByte_toByte]

/-- The checksum does not depend on the one in the header. -/
theorem computeChecksum_encode (P : Primitives) (h : PacketHeader) (checksum : UInt16) (rest : Bytes) :
    computeChecksum P ({ h with checksum := checksum }.encode ++ rest) = computeChecksum P (h.encode ++ rest) := rfl

end PacketHeader

namespace PacketDecoder

theorem nextFrame_wire {d : PacketDecoder} {f : Frame} {rest : Bytes} (size : f.payload.length < 2^16)
    (here : d.bytes.drop (packetHeaderSize + d.frameCursor) = f.wire ++ rest)
    (within : d.frameCursor + f.wire.length ≤ d.header.payloadLength.toNat) :
    d.nextFrame = some (f,{ d with frameCursor := d.frameCursor + f.wire.length }) := by
  have length : (UInt16.ofNat f.payload.length).toNat = f.payload.length := by
    rw [UInt16.toNat_ofNat',Nat.mod_eq_of_lt size]
  have afterType : d.bytes.drop (packetHeaderSize + d.frameCursor + 1) =
      writeU16 (UInt16.ofNat f.payload.length) ++ (f.payload ++ rest) := by
    rw [← List.drop_drop,here,Frame.wire]
    simp
  have afterHeader : d.bytes.drop (packetHeaderSize + d.frameCursor + frameHeaderSize) = f.payload ++ rest := by
    rw [← List.drop_drop,here,Frame.wire]
    rfl
  have type : byteAt (d.bytes.drop (packetHeaderSize + d.frameCursor)) 0 = f.type.toByte := by
    rw [here]
    rfl
  rw [Frame.wire_length] at within ⊢
  simp only [nextFrame,afterType,readU16_write,length,afterHeader,type,FrameType.ofByte_toByte,List.take_left]
  rw [if_neg (by omega),if_neg (by omega)]

/-- The frames of a payload that is made of frames. -/
theorem frames_wire (fs : List Frame) (d : PacketDecoder) (rest : Bytes) (size : ∀ f ∈ fs, f.payload.length < 2^16)
    (here : d.bytes.drop (packetHeaderSize + d.frameCursor) = fs.flatMap Frame.wire ++ rest)
    (within : d.frameCursor + (fs.flatMap Frame.wire).length = d.header.payloadLength.toNat) : d.frames = fs := by
  induction fs generalizing d with
  | nil =>
    rw [frames_eq,nextFrame_none (by simpa using within.ge)]
  | cons f fs ih =>
    rw [List.flatMap_cons,List.append_assoc] at here
    rw [List.flatMap_cons,List.length_append] at within
    have next := nextFrame_wire (size f (by simp)) here (by omega)
    rw [frames_eq,next]
    show f :: _ = f :: fs
    rw [ih { d with frameCursor := d.frameCursor + f.wire.length } (fun g member => size g (by simp [member]))]
    · show d.bytes.drop _ = _
      rw [← Nat.add_assoc,← List.drop_drop,here,List.drop_left]
    · show d.frameCursor + f.wire.length + _ = d.header.payloadLength.toNat
      omega

end PacketDecoder

namespace PacketEncoder

/-- A finished packet is its header, with the checksum, and its frames. -/
theorem finalize_eq (P : Primitives) (enc : PacketEncoder) :
    (enc.finalize P).1 =
      { enc.header with checksum := PacketHeader.computeChecksum P (enc.header.encode ++ enc.payload) }.encode ++
        enc.payload := rfl

/-- The decoder of a finished packet, whatever it held before. -/
def parsed (P : Primitives) (enc : PacketEncoder) : PacketDecoder :=
  ⟨{ enc.header with
      flags := enc.flags &&& 0x0F
      checksum := PacketHeader.computeChecksum P (enc.header.encode ++ enc.payload) },
    some (enc.finalize P).1,packetHeaderSize + enc.payload.length,0⟩

/-- A finished packet is accepted, with the header as it was set. -/
theorem parse_finalize (P : Primitives) (enc : PacketEncoder) (dec : PacketDecoder) (room : enc.payload.length < 2^16) :
    dec.parse (enc.finalize P).1 = (enc.parsed P,true) := by
  have plen : enc.header.payloadLength.toNat = enc.payload.length := by
    show (UInt16.ofNat enc.payloadSize).toNat = _
    rw [payloadSize,cursor,Nat.add_sub_cancel_left,UInt16.toNat_ofNat',Nat.mod_eq_of_lt room]
  have long : (enc.finalize P).1.length = packetHeaderSize + enc.payload.length := by
    rw [finalize_eq,List.length_append,PacketHeader.encode_length]
  have decoded : PacketHeader.decode (enc.finalize P).1 = some { enc.header with
      flags := enc.flags &&& 0x0F
      checksum := PacketHeader.computeChecksum P (enc.header.encode ++ enc.payload) } := by
    have version : protocolVersion &&& 0x0F = protocolVersion := by decide
    rw [finalize_eq,PacketHeader.decode_encode]
    simp only [header,version]
  rw [PacketDecoder.parse,if_neg (by rw [long]; omega),decoded]
  simp only [plen,long,lt_irrefl,if_false,parsed]

theorem verifyChecksum_parsed (P : Primitives) (enc : PacketEncoder) : (enc.parsed P).verifyChecksum P = true := by
  have whole : (enc.finalize P).1.take (packetHeaderSize + enc.payload.length) = (enc.finalize P).1 := by
    apply List.take_of_length_le
    rw [finalize_eq,List.length_append,PacketHeader.encode_length]
  simp only [PacketDecoder.verifyChecksum,parsed,whole]
  rw [finalize_eq,PacketHeader.computeChecksum_encode]
  exact beq_self_eq_true _

theorem frames_parsed (P : Primitives) (enc : PacketEncoder) (fs : List Frame)
    (payload : enc.payload = fs.flatMap Frame.wire) (size : ∀ f ∈ fs, f.payload.length < 2^16)
    (room : enc.payload.length < 2^16) : (enc.parsed P).frames = fs := by
  apply PacketDecoder.frames_wire fs _ [] size
  · show (enc.finalize P).1.drop (packetHeaderSize + 0) = _
    rw [finalize_eq,Nat.add_zero,← PacketHeader.encode_length,List.drop_left,List.append_nil,payload]
  · show 0 + _ = (UInt16.ofNat enc.payloadSize).toNat
    rw [payloadSize,cursor,Nat.add_sub_cancel_left,UInt16.toNat_ofNat',Nat.mod_eq_of_lt room,payload,Nat.zero_add]

/-- The decoder of a finished packet finds its checksum right and returns the
    frames that were added. -/
theorem frames_finalize (P : Primitives) (enc : PacketEncoder) (fs : List Frame)
    (payload : enc.payload = fs.flatMap Frame.wire) (size : ∀ f ∈ fs, f.payload.length < 2^16)
    (room : enc.payload.length < 2^16) :
    ∃ d, PacketDecoder.ofPacket (enc.finalize P).1 = some d ∧ d.verifyChecksum P = true ∧
      d.header.packetType = enc.packetType ∧ d.frames = fs := by
  refine ⟨enc.parsed P,?_,verifyChecksum_parsed P enc,rfl,frames_parsed P enc fs payload size room⟩
  rw [PacketDecoder.ofPacket,parse_finalize P enc {} room]
  rfl

end PacketEncoder
end Rom
