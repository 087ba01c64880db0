import Rom.Codec
import Rom.Runs

/-!
The packet codec over whole runs. One encoder builds packet after packet; its
callers set header fields, add frames, some of which it refuses, and finalize.
Every packet it puts out reads back as it was meant (`readsBack_run`). In the
other direction, the frames that the decoder returns for any bytes it accepts,
written again, are the front of the payload, and what is left of the payload is
no whole frame (`returns_split`).
-/
namespace Rom.CodecRuns
open Rom.Runs

/-- A call on the encoder. The bytes behind a payload pointer are as many as the
    caller says, or more. -/
inductive Call where
  | setPacketType (type : PacketType)
  | setConnectionId (connId : UInt16)
  | setPacketNumber (pktNum : UInt32)
  | setTimestamp (timestampUs : UInt32)
  | addFrame (type : FrameType) (payload : Bytes) (payloadLen : UInt16) (there : payloadLen.toNat ≤ payload.length)
  | finalize

/-- A packet as its caller means it. -/
structure Meant where
  packetType : PacketType := .data
  connectionId : UInt16 := 0
  packetNumber : UInt32 := 0
  timestampUs : UInt32 := 0
  frames : List Frame := []

/-- The encoder, and the packet that its caller is building. -/
structure Building where
  enc : PacketEncoder := {}
  meant : Meant := {}

def step (P : Primitives) (s : Building) : Call → Building
  | .setPacketType type => ⟨s.enc.setPacketType type,{ s.meant with packetType := type }⟩
  | .setConnectionId connId => ⟨s.enc.setConnectionId connId,{ s.meant with connectionId := connId }⟩
  | .setPacketNumber pktNum => ⟨s.enc.setPacketNumber pktNum,{ s.meant with packetNumber := pktNum }⟩
  | .setTimestamp timestampUs => ⟨s.enc.setTimestamp timestampUs,{ s.meant with timestampUs := timestampUs }⟩
  | .addFrame type payload payloadLen _ =>
    match s.enc.addFrame type payload payloadLen with
    | some enc => ⟨enc,{ s.meant with frames := s.meant.frames ++ [⟨type,payload.take payloadLen.toNat⟩] }⟩
    | none => s
  | .finalize => ⟨(s.enc.finalize P).2,{ s.meant with frames := [] }⟩

/-- The packets that are put out, each with what was meant. -/
def out (P : Primitives) (s : Building) : Call → List (Meant × Bytes)
  | .finalize => [(s.meant,(s.enc.finalize P).1)]
  | _ => []

/-- The next calls of `nextFrame` return these frames and leave the decoder so. -/
def Returns : PacketDecoder → List Frame → PacketDecoder → Prop
  | d, [], d' => d' = d
  | d, f :: fs, d' => ∃ next, d.nextFrame = some (f,next) ∧ Returns next fs d'

/-- Whatever the decoder did before, it accepts the packet, finds its checksum
    right, has its header fields, and returns its frames and no more. -/
def ReadsBack (P : Primitives) (meant : Meant) (packet : Bytes) : Prop :=
  ∀ dec : PacketDecoder, (dec.parse packet).2 = true ∧ (dec.parse packet).1.verifyChecksum P = true ∧
    (dec.parse packet).1.header.version = protocolVersion ∧ (dec.parse packet).1.header.flags = flagChecksum ∧
    (dec.parse packet).1.header.packetType = meant.packetType ∧
    (dec.parse packet).1.header.connectionId = meant.connectionId ∧
    (dec.parse packet).1.header.packetNumber = meant.packetNumber ∧
    (dec.parse packet).1.header.timestampUs = meant.timestampUs ∧
    ∃ ended, Returns (dec.parse packet).1 meant.frames ended ∧ ended.nextFrame = none

/-- The bytes that a packet's header declares as its payload. -/
def payloadRegion (header : PacketHeader) (packet : Bytes) : Bytes :=
  (packet.drop packetHeaderSize).take header.payloadLength.toNat

/-- The bytes start no whole frame. -/
def NoFrame (rest : Bytes) : Prop :=
  rest.length < frameHeaderSize ∨ rest.length < frameHeaderSize + (readU16 (rest.drop 1)).toNat

/-! ### The decoder -/

theorem returns_frames (d : PacketDecoder) : ∃ ended, Returns d d.frames ended ∧ ended.nextFrame = none := by
  -- each frame moves the cursor, which stays within the payload
  induction left : d.header.payloadLength.toNat - d.frameCursor using Nat.strong_induction_on generalizing d with
  | h n ih =>
    rw [PacketDecoder.frames_eq]
    cases next : d.nextFrame with
    | none => exact ⟨d,rfl,next⟩
    | some r =>
      obtain ⟨same,later,within⟩ := PacketDecoder.nextFrame_advances next
      obtain ⟨ended,returns,none⟩ := ih _ (by rw [same]; omega) r.2 rfl
      exact ⟨ended,⟨r.2,next,returns⟩,none⟩

/-- The decoder after a packet that it accepts. -/
theorem parse_eq_true {dec : PacketDecoder} {packet : Bytes} (accepted : (dec.parse packet).2 = true) :
    ∃ header, packetHeaderSize + header.payloadLength.toNat ≤ packet.length ∧
      (dec.parse packet).1 = ⟨header,some packet,packetHeaderSize + header.payloadLength.toNat,0⟩ := by
  rcases PacketDecoder.parse_cases packet with refused | ⟨header,room,taken⟩
  · obtain ⟨header,parsed⟩ := refused dec
    rw [parsed] at accepted
    cases accepted
  · exact ⟨header,room,by rw [taken]⟩

/-- What the frame cursor has not passed yet. -/
def rest (d : PacketDecoder) : Bytes := (payloadRegion d.header d.bytes).drop d.frameCursor

/-- The buffer holds the payload that the header declares. -/
def Whole (d : PacketDecoder) : Prop := packetHeaderSize + d.header.payloadLength.toNat ≤ d.bytes.length

theorem rest_length {d : PacketDecoder} (whole : Whole d) :
    (rest d).length = d.header.payloadLength.toNat - d.frameCursor := by
  have room : packetHeaderSize + d.header.payloadLength.toNat ≤ d.bytes.length := whole
  rw [rest,payloadRegion,List.length_drop,List.length_take,List.length_drop,Nat.min_eq_left (by omega)]

theorem rest_eq (d : PacketDecoder) :
    rest d = (d.bytes.drop (packetHeaderSize + d.frameCursor)).take (d.header.payloadLength.toNat - d.frameCursor) := by
  rw [rest,payloadRegion,List.drop_take,List.drop_drop]

theorem readU16_rest {d : PacketDecoder} (inside : d.frameCursor + frameHeaderSize ≤ d.header.payloadLength.toNat) :
    readU16 ((rest d).drop 1) = readU16 (d.bytes.drop (packetHeaderSize + d.frameCursor + 1)) := by
  rw [rest_eq,List.drop_take,List.drop_drop]
  rw [frameHeaderSize] at inside
  exact readU16_take _ (by omega)

/-- No frame is returned only where none is left. -/
theorem noFrame_of_none {d : PacketDecoder} (whole : Whole d) (none : d.nextFrame = none) : NoFrame (rest d) := by
  have header : frameHeaderSize = 3 := rfl
  have ended := PacketDecoder.nextFrame_eq_none.mp none
  rw [PacketDecoder.frameEnd] at ended
  rw [NoFrame,rest_length whole]
  by_cases inside : d.frameCursor + frameHeaderSize ≤ d.header.payloadLength.toNat
  · right
    rw [readU16_rest inside]
    omega
  · left
    omega

/-- A frame read from the front of bytes is written as they are. -/
theorem wire_read {p : Bytes} (long : frameHeaderSize + (readU16 (p.drop 1)).toNat ≤ p.length) :
    Frame.wire ⟨.ofByte (byteAt p 0),(p.drop frameHeaderSize).take (readU16 (p.drop 1)).toNat⟩ =
      p.take (frameHeaderSize + (readU16 (p.drop 1)).toNat) := by
  have size : ((p.drop frameHeaderSize).take (readU16 (p.drop 1)).toNat).length = (readU16 (p.drop 1)).toNat := by
    rw [List.length_take,List.length_drop,Nat.min_eq_left (by omega)]
  rw [Frame.wire,size,UInt16.ofNat_toNat,FrameType.toByte_ofByte]
  cases p with
  | nil => simp [frameHeaderSize] at long
  | cons first p =>
    have behind : 2 ≤ p.length := by
      rw [frameHeaderSize,List.length_cons] at long
      omega
    rw [List.drop_succ_cons,List.drop_zero] at long ⊢
    rw [writeU16_read behind]
    show first :: (p.take 2 ++ (p.drop 2).take _) = _
    rw [← List.take_add]
    show _ = (first :: p).take (3 + _)
    rw [show 3 + (readU16 p).toNat = (2 + (readU16 p).toNat) + 1 by omega,List.take_succ_cons]

/-- A frame that is returned stood at the cursor. -/
theorem rest_of_next {d d' : PacketDecoder} {f : Frame} (whole : Whole d) (next : d.nextFrame = some (f,d')) :
    rest d = f.wire ++ rest d' ∧ Whole d' := by
  have room : packetHeaderSize + d.header.payloadLength.toNat ≤ d.bytes.length := whole
  obtain ⟨fits,rfl,rfl⟩ := PacketDecoder.nextFrame_eq_some next
  refine ⟨?_,whole⟩
  have ahead : d.bytes.drop (packetHeaderSize + d.frameCursor + 1) =
      (d.bytes.drop (packetHeaderSize + d.frameCursor)).drop 1 := by rw [List.drop_drop]
  have behind : d.bytes.drop (packetHeaderSize + d.frameCursor + frameHeaderSize) =
      (d.bytes.drop (packetHeaderSize + d.frameCursor)).drop frameHeaderSize := by rw [List.drop_drop]
  have later : ∀ n, rest { d with frameCursor := d.frameCursor + n } =
      ((d.bytes.drop (packetHeaderSize + d.frameCursor)).drop n).take
        (d.header.payloadLength.toNat - d.frameCursor - n) := by
    intro n
    rw [rest_eq,List.drop_drop,Nat.add_assoc,Nat.sub_sub]
    rfl
  have long : d.header.payloadLength.toNat - d.frameCursor ≤
      (d.bytes.drop (packetHeaderSize + d.frameCursor)).length := by
    rw [List.length_drop]
    omega
  rw [PacketDecoder.frameEnd,ahead] at fits
  rw [PacketDecoder.frameEnd,later,rest_eq,PacketDecoder.frameAt,ahead,behind]
  generalize d.bytes.drop (packetHeaderSize + d.frameCursor) = p at fits long ⊢
  rw [wire_read (by omega),← List.take_add]
  apply congrArg (p.take ·)
  omega

theorem returns_split {d ended : PacketDecoder} {fs : List Frame} (whole : Whole d) (returns : Returns d fs ended) :
    rest d = fs.flatMap Frame.wire ++ rest ended ∧ Whole ended := by
  induction fs generalizing d with
  | nil =>
    cases returns
    exact ⟨rfl,whole⟩
  | cons f fs ih =>
    obtain ⟨next,found,later⟩ := returns
    obtain ⟨here,whole'⟩ := rest_of_next whole found
    obtain ⟨there,whole''⟩ := ih whole' later
    rw [List.flatMap_cons,List.append_assoc,← there]
    exact ⟨here,whole''⟩

/-! ### The encoder -/

/-- The encoder holds what its caller means. -/
structure Faithful (s : Building) : Prop where
  payload : s.enc.payload = s.meant.frames.flatMap Frame.wire
  room : packetHeaderSize + s.enc.payload.length ≤ maxPacketSize
  sizes : ∀ f ∈ s.meant.frames, f.payload.length < 2^16
  flags : s.enc.flags = flagChecksum
  packetType : s.enc.packetType = s.meant.packetType
  connectionId : s.enc.connectionId = s.meant.connectionId
  packetNumber : s.enc.packetNumber = s.meant.packetNumber
  timestampUs : s.enc.timestampUs = s.meant.timestampUs

theorem faithful_start : Faithful {} := ⟨rfl,by decide,by simp,rfl,rfl,rfl,rfl,rfl⟩

theorem addFrame_some {enc enc' : PacketEncoder} {type : FrameType} {payload : Bytes} {payloadLen : UInt16}
    (there : payloadLen.toNat ≤ payload.length) (added : enc.addFrame type payload payloadLen = some enc') :
    packetHeaderSize + enc'.payload.length ≤ maxPacketSize ∧
      enc' = { enc with payload := enc.payload ++ Frame.wire ⟨type,payload.take payloadLen.toNat⟩ } := by
  have size : (payload.take payloadLen.toNat).length = payloadLen.toNat := by
    rw [List.length_take,Nat.min_eq_left there]
  have wire : Frame.wire ⟨type,payload.take payloadLen.toNat⟩ =
      type.toByte :: writeU16 payloadLen ++ payload.take payloadLen.toNat := by
    rw [Frame.wire,size,UInt16.ofNat_toNat]
  unfold PacketEncoder.addFrame at added
  split at added
  · cases added
  · next fits =>
    cases added
    rw [wire]
    refine ⟨?_,rfl⟩
    have long : (type.toByte :: writeU16 payloadLen ++ payload.take payloadLen.toNat).length =
        frameHeaderSize + payloadLen.toNat := by
      rw [← wire,Frame.wire_length,size]
    rw [PacketEncoder.cursor] at fits
    rw [List.length_append,long]
    omega

theorem faithful_step (P : Primitives) (s : Building) (call : Call) (faithful : Faithful s) :
    Faithful (step P s call) := by
  obtain ⟨payload,room,sizes,flags,packetType,connectionId,packetNumber,timestampUs⟩ := faithful
  cases call with
  | setPacketType type => exact ⟨payload,room,sizes,flags,rfl,connectionId,packetNumber,timestampUs⟩
  | setConnectionId connId => exact ⟨payload,room,sizes,flags,packetType,rfl,packetNumber,timestampUs⟩
  | setPacketNumber pktNum => exact ⟨payload,room,sizes,flags,packetType,connectionId,rfl,timestampUs⟩
  | setTimestamp timestampUs => exact ⟨payload,room,sizes,flags,packetType,connectionId,packetNumber,rfl⟩
  | finalize => exact ⟨rfl,faithful_start.room,by simp [step],flags,packetType,connectionId,packetNumber,timestampUs⟩
  | addFrame type bytes size there =>
    rw [step]
    cases added : s.enc.addFrame type bytes size with
    | none => exact ⟨payload,room,sizes,flags,packetType,connectionId,packetNumber,timestampUs⟩
    | some enc =>
      obtain ⟨fits,rfl⟩ := addFrame_some there added
      refine ⟨?_,fits,?_,flags,packetType,connectionId,packetNumber,timestampUs⟩
      · show s.enc.payload ++ _ = List.flatMap Frame.wire (s.meant.frames ++ [_])
        rw [List.flatMap_append,payload,List.flatMap_singleton]
      · intro f member
        rcases List.mem_append.mp member with old | new
        · exact sizes f old
        · rw [List.mem_singleton] at new
          subst new
          have bound := size.toNat_lt
          rw [List.length_take]
          omega

theorem readsBack_finalize (P : Primitives) {s : Building} (faithful : Faithful s) :
    ReadsBack P s.meant (s.enc.finalize P).1 := by
  have room : s.enc.payload.length < 2^16 := by
    have limit := faithful.room
    rw [packetHeaderSize,maxPacketSize] at limit
    omega
  intro dec
  rw [PacketEncoder.parse_finalize P s.enc dec room]
  obtain ⟨ended,returns,none⟩ := returns_frames (s.enc.parsed P)
  rw [PacketEncoder.frames_parsed P s.enc s.meant.frames faithful.payload faithful.sizes room] at returns
  have flags : s.enc.flags &&& 0x0F = flagChecksum := by
    rw [faithful.flags]
    decide
  exact ⟨rfl,PacketEncoder.verifyChecksum_parsed P s.enc,rfl,flags,faithful.packetType,faithful.connectionId,
    faithful.packetNumber,faithful.timestampUs,ended,returns,none⟩

/-- Every packet that one encoder puts out reads back as it was meant. -/
theorem readsBack_run (P : Primitives) (calls : List Call) {s : Building} (faithful : Faithful s)
    {built : Meant × Bytes} (member : built ∈ outputs (step P) (out P) s calls) : ReadsBack P built.1 built.2 := by
  induction calls generalizing s with
  | nil => cases member
  | cons call calls ih =>
    rcases List.mem_append.mp member with here | later
    · cases call with
      | finalize =>
        obtain rfl := List.mem_singleton.mp here
        exact readsBack_finalize P faithful
      | _ => cases here
    · exact ih (faithful_step P s call faithful) later

/-- Packets of one encoder read back as they were meant, and the frames that are
    read from any accepted bytes are the front of their payload, with no whole
    frame behind them. -/
theorem codec_bijective (P : Primitives) :
    (∀ (calls : List Call), ∀ built ∈ outputs (step P) (out P) {} calls, ReadsBack P built.1 built.2) ∧
    ∀ (dec : PacketDecoder) (packet : Bytes), (dec.parse packet).2 = true →
      ∃ fs ended, Returns (dec.parse packet).1 fs ended ∧ ended.nextFrame = none ∧
        ∃ rest, payloadRegion (dec.parse packet).1.header packet = fs.flatMap Frame.wire ++ rest ∧ NoFrame rest := by
  constructor
  · exact fun calls built member => readsBack_run P calls faithful_start member
  · intro dec packet accepted
    obtain ⟨header,room,parsed⟩ := parse_eq_true accepted
    rw [parsed]
    obtain ⟨ended,returns,none⟩ := returns_frames ⟨header,some packet,packetHeaderSize + header.payloadLength.toNat,0⟩
    have start : Whole ⟨header,some packet,packetHeaderSize + header.payloadLength.toNat,0⟩ := room
    obtain ⟨split,whole⟩ := returns_split start returns
    exact ⟨_,ended,returns,none,rest ended,split,noFrame_of_none whole none⟩

/-- Two packets of one encoder, of which the second has no frames. -/
theorem codec_bijective_two_packets :
    (outputs (step plain) (out plain) {}
      [.setPacketNumber 7,.addFrame .ping [1,2,3,4] 4 (by decide),.addFrame .ack [5] 1 (by decide),.finalize,
        .setPacketNumber 8,.finalize]).map (fun built => built.1.frames.length) = [2,0] ∧
    ∀ built ∈ outputs (step plain) (out plain) {}
      [.setPacketNumber 7,.addFrame .ping [1,2,3,4] 4 (by decide),.addFrame .ack [5] 1 (by decide),.finalize,
        .setPacketNumber 8,.finalize], ReadsBack plain built.1 built.2 :=
  ⟨by decide +kernel,(codec_bijective plain).1 _⟩

end Rom.CodecRuns
