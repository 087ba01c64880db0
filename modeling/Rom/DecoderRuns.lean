import Rom.FrameLoops

/-!
A packet decoder over a run of calls. `parse` takes over the header of a packet before
it compares the length that it announces with that of the buffer, and the buffer only
afterwards, so a refused packet leaves its header together with the buffer of an
earlier one, or with none. `usable_iff` says exactly in which runs that does no harm:
where each `nextFrame` reads inside the buffer that was accepted last, and takes the
frame there exactly if the header that belongs to the buffer would let it.
-/
namespace Rom.DecoderRuns
open Rom.Runs Rom.Checked PacketDecoder

inductive Call where
  | parse (data : Bytes)
  | nextFrame
  | resetFrameCursor
  | verifyChecksum
  deriving DecidableEq

/-- A decoder, with the buffer that it accepted last and the header that came with it.
    A new decoder has not set its header. -/
structure Session where
  dec : PacketDecoder
  accepted : Option Bytes
  own : PacketHeader

def start (first : PacketHeader) : Session := ⟨{ header := first },none,first⟩

def step (s : Session) : Call → Session
  | .parse data =>
    if (s.dec.parse data).2 then ⟨(s.dec.parse data).1,some data,(s.dec.parse data).1.header⟩
    else { s with dec := (s.dec.parse data).1 }
  | .nextFrame => { s with dec := (s.dec.nextFrame.map Prod.snd).getD s.dec }
  | .resetFrameCursor => { s with dec := s.dec.resetFrameCursor }
  | .verifyChecksum => s

/-- What calls of `nextFrame` return. -/
def returned (s : Session) : Call → List (Option Frame)
  | .nextFrame => [s.dec.nextFrame.map Prod.fst]
  | _ => []

/-- Where a call reads from the decoder's pointer on. The payload of a frame is only
    pointed at. -/
def reads (d : PacketDecoder) : Call → List Nat
  | .nextFrame =>
    if packetHeaderSize + d.frameCursor + frameHeaderSize > packetHeaderSize + d.header.payloadLength.toNat then []
    else (List.range frameHeaderSize).map (packetHeaderSize + d.frameCursor + ·)
  | .verifyChecksum => if d.data = none ∨ d.dataLen < packetHeaderSize then [] else List.range d.dataLen
  | _ => []

/-- The call reads from the buffer that was accepted last, if at all. -/
def ReadsInside (s : Session) (c : Call) : Prop := ∀ i ∈ reads s.dec c, i < (s.accepted.getD []).length

instance (s : Session) (c : Call) : Decidable (ReadsInside s c) :=
  inferInstanceAs (Decidable (∀ i ∈ reads s.dec c, i < (s.accepted.getD []).length))

/-- Whether a packet is accepted does not depend on the decoder. -/
def accepts (data : Bytes) : Bool := (PacketDecoder.parse {} data).2

/-- All calls but those of `parse` that are refused. -/
def heeded : Call → Bool
  | .parse data => accepts data
  | _ => true

/-- The frame header that is read lies in the accepted buffer, and the frame at the
    cursor ends within both payloads, the one that the decoder's header announces and
    the one that was accepted, or within neither. -/
def Unharmed (s : Session) : Call → Prop
  | .nextFrame =>
    (s.dec.frameCursor + frameHeaderSize ≤ s.dec.header.payloadLength.toNat →
      packetHeaderSize + s.dec.frameCursor + frameHeaderSize ≤ (s.accepted.getD []).length) ∧
    (frameEnd s.dec ≤ s.dec.header.payloadLength.toNat ↔ frameEnd s.dec ≤ s.own.payloadLength.toNat)
  | _ => True

/-! ### Calls -/

/-- A packet that is not accepted leaves the decoder but for its header. -/
theorem parse_refused {data : Bytes} (refused : accepts data = false) (d : PacketDecoder) :
    ∃ header, d.parse data = ({ d with header := header },false) := by
  rcases parse_cases data with kept | ⟨_,_,taken⟩
  · exact kept d
  · rw [accepts,taken] at refused
    cases refused

/-- A packet that is accepted replaces all that the decoder has. -/
theorem parse_accepted {data : Bytes} (accepted : accepts data = true) :
    ∃ header : PacketHeader, packetHeaderSize + header.payloadLength.toNat ≤ data.length ∧
      ∀ d : PacketDecoder, d.parse data = (⟨header,some data,packetHeaderSize + header.payloadLength.toNat,0⟩,true) := by
  rcases parse_cases data with kept | taken
  · obtain ⟨header,parsed⟩ := kept {}
    rw [accepts,parsed] at accepted
    cases accepted
  · exact taken

theorem readsInside_of_nil {s : Session} {c : Call} (nothing : reads s.dec c = []) : ReadsInside s c := by
  intro i member
  rw [nothing] at member
  cases member

theorem readsInside_nextFrame (s : Session) :
    ReadsInside s .nextFrame ↔ (s.dec.frameCursor + frameHeaderSize ≤ s.dec.header.payloadLength.toNat →
      packetHeaderSize + s.dec.frameCursor + frameHeaderSize ≤ (s.accepted.getD []).length) := by
  rw [ReadsInside,reads,frameHeaderSize]
  split
  · next ended =>
    constructor
    · intro _ room
      omega
    · intro _ i member
      cases member
  · next room =>
    constructor
    · intro inside _
      have last := inside (packetHeaderSize + s.dec.frameCursor + 2)
        (List.mem_map.mpr ⟨2,List.mem_range.mpr (by omega),rfl⟩)
      omega
    · intro inside i member
      obtain ⟨j,small,rfl⟩ := List.mem_map.mp member
      have below := List.mem_range.mp small
      have whole := inside (by omega)
      omega

/-- A read outside the buffer is one outside in the checked decoder. -/
theorem outside_of_reads {s : Session} (data : s.dec.data = s.accepted) (outside : ¬ ReadsInside s .nextFrame) :
    FrameLoops.nextFrame s.dec = .outside := by
  rw [readsInside_nextFrame,frameHeaderSize,Classical.not_imp] at outside
  obtain ⟨room,short⟩ := outside
  have bytes : s.dec.bytes = s.accepted.getD [] := congrArg (Option.getD · []) data
  rw [← bytes] at short
  rw [FrameLoops.nextFrame,frameHeaderSize,if_neg (by omega)]
  by_cases type : packetHeaderSize + s.dec.frameCursor < s.dec.bytes.length
  · rw [Decoders.byteAt_inside type,Outcome.done_bind,Decoders.u16At,slice_outside (by omega)]
    rfl
  · rw [readAt_outside (by omega)]
    rfl

/-! ### Runs with and without refused packets -/

/-- The decoder as it would be had it not seen the refused packets. -/
def clean (s : Session) : Session := { s with dec := { s.dec with header := s.own } }

/-- The decoder points at the buffer that was accepted last, which holds its payload. -/
def Pointed (s : Session) : Prop :=
  s.dec.data = s.accepted ∧ ∀ data, s.accepted = some data →
    s.dec.dataLen ≤ data.length ∧ packetHeaderSize + s.own.payloadLength.toNat ≤ data.length

theorem pointed_step {s : Session} (pointed : Pointed s) (c : Call) : Pointed (step s c) := by
  cases c with
  | parse data =>
    rw [step]
    cases taken : accepts data with
    | false =>
      obtain ⟨header,parsed⟩ := parse_refused taken s.dec
      rw [parsed]
      exact pointed
    | true =>
      obtain ⟨header,room,parsed⟩ := parse_accepted taken
      rw [parsed]
      refine ⟨rfl,?_⟩
      rintro _ ⟨⟩
      exact ⟨room,room⟩
  | nextFrame =>
    rw [step,nextFrame_eq]
    split
    · exact pointed
    · exact pointed
  | resetFrameCursor => exact pointed
  | verifyChecksum => exact pointed

theorem readsInside_verifyChecksum {s : Session} (pointed : Pointed s) : ReadsInside s .verifyChecksum := by
  intro i member
  rw [reads] at member
  split at member
  · cases member
  · next read =>
    obtain ⟨data,there⟩ := Option.ne_none_iff_exists'.mp (not_or.mp read).1
    have accepted : s.accepted = some data := pointed.1.symm.trans there
    have inside := (pointed.2 data accepted).1
    rw [accepted]
    exact Nat.lt_of_lt_of_le (List.mem_range.mp member) inside

/-- A `nextFrame` returns the same under both headers exactly if both let it take the
    frame, or neither does. -/
theorem returned_clean_iff (s : Session) :
    returned s .nextFrame = returned (clean s) .nextFrame ↔
      (frameEnd s.dec ≤ s.dec.header.payloadLength.toNat ↔ frameEnd s.dec ≤ s.own.payloadLength.toNat) := by
  have ends : frameEnd (clean s).dec = frameEnd s.dec := rfl
  have frame : frameAt (clean s).dec = frameAt s.dec := rfl
  have header : (clean s).dec.header = s.own := rfl
  rw [returned,returned,nextFrame_eq,nextFrame_eq,ends,frame,header]
  split_ifs with shown held held
  all_goals simp [shown,held]

theorem clean_nextFrame {s : Session}
    (same : frameEnd s.dec ≤ s.dec.header.payloadLength.toNat ↔ frameEnd s.dec ≤ s.own.payloadLength.toNat) :
    clean (step s .nextFrame) = step (clean s) .nextFrame := by
  have ends : frameEnd (clean s).dec = frameEnd s.dec := rfl
  have header : (clean s).dec.header = s.own := rfl
  rw [step,step,nextFrame_eq,nextFrame_eq (clean s).dec,ends,header]
  by_cases shown : frameEnd s.dec ≤ s.dec.header.payloadLength.toNat
  · rw [if_pos shown,if_pos (same.mp shown)]
    rfl
  · rw [if_neg shown,if_neg (fun held => shown (same.mpr held))]
    rfl

/-- One call that is heeded, with and without the refused packets before it. -/
theorem heeded_exact {s : Session} (pointed : Pointed s) {c : Call} (heard : heeded c = true) :
    (returned s c).length = (returned (clean s) c).length ∧
    (ReadsInside s c ∧ returned s c = returned (clean s) c ↔ Unharmed s c) ∧
    (Unharmed s c → clean (step s c) = step (clean s) c) := by
  cases c with
  | parse data =>
    refine ⟨rfl,iff_of_true ⟨readsInside_of_nil rfl,rfl⟩ trivial,fun _ => ?_⟩
    obtain ⟨header,_,parsed⟩ := parse_accepted heard
    rw [step,step,parsed,parsed]
    rfl
  | nextFrame =>
    exact ⟨rfl,and_congr (readsInside_nextFrame s) (returned_clean_iff s),fun unharmed => clean_nextFrame unharmed.2⟩
  | resetFrameCursor => exact ⟨rfl,iff_of_true ⟨readsInside_of_nil rfl,rfl⟩ trivial,fun _ => rfl⟩
  | verifyChecksum => exact ⟨rfl,iff_of_true ⟨readsInside_verifyChecksum pointed,rfl⟩ trivial,fun _ => rfl⟩

/-- A refused packet can change the header only. -/
theorem clean_refused {s : Session} {c : Call} (refused : heeded c = false) :
    (returned s c = [] ∧ ReadsInside s c ∧ Unharmed s c) ∧ clean (step s c) = clean s := by
  cases c with
  | parse data =>
    refine ⟨⟨rfl,readsInside_of_nil rfl,trivial⟩,?_⟩
    obtain ⟨header,parsed⟩ := parse_refused refused s.dec
    rw [step,parsed]
    rfl
  | nextFrame => cases refused
  | resetFrameCursor => cases refused
  | verifyChecksum => cases refused

/-- The header that the decoder shows is that of the packet it accepted last. -/
def Current (s : Session) (c : Call) : Prop := c = .nextFrame → s.accepted ≠ none ∧ s.dec.header = s.own

theorem unharmed_of_current {s : Session} (pointed : Pointed s) {c : Call} (current : Current s c) : Unharmed s c := by
  cases c with
  | nextFrame =>
    obtain ⟨there,header⟩ := current rfl
    obtain ⟨data,accepted⟩ := Option.ne_none_iff_exists'.mp there
    have room := (pointed.2 data accepted).2
    refine ⟨fun inside => ?_,by rw [header]⟩
    rw [header] at inside
    rw [accepted]
    show _ ≤ data.length
    omega
  | parse data => trivial
  | resetFrameCursor => trivial
  | verifyChecksum => trivial

/-- A run reads only from the buffer accepted last, and returns the frames that it
    would return without the refused packets, exactly if refused packets leave each
    `nextFrame` unharmed. It is so if `nextFrame` is called only under the header of
    the packet accepted last. -/
theorem usable_iff (first : PacketHeader) (calls : List Call) :
    (Along step ReadsInside (start first) calls ∧
        outputs step returned (start first) calls = outputs step returned (start first) (calls.filter heeded) ↔
      Along step Unharmed (start first) calls) ∧
    (Along step Current (start first) calls → Along step Unharmed (start first) calls) := by
  have pointed : Pointed (start first) := ⟨rfl,fun data none => nomatch none⟩
  constructor
  · refine along_outputs_filter_iff (R := fun s t => Pointed s ∧ clean s = t) ?_ ?_ ⟨pointed,rfl⟩
    · rintro s _ c ⟨pointed,rfl⟩ heard
      obtain ⟨size,same,next⟩ := heeded_exact pointed heard
      exact ⟨size,same,fun unharmed => ⟨pointed_step pointed c,next unharmed⟩⟩
    · rintro s _ c ⟨pointed,rfl⟩ refused
      obtain ⟨silent,next⟩ := clean_refused refused
      exact ⟨silent,pointed_step pointed c,next⟩
  · intro current
    exact current.imp (fun s c pointed => pointed_step pointed c) (fun s c pointed => unharmed_of_current pointed) pointed

/-- A header of zeros, but for the payload length. -/
def announcing (payloadLength : UInt16) : Bytes := List.replicate 12 0 ++ writeU16 payloadLength ++ [0,0]

/-- A refused packet that announces more makes `nextFrame` read behind the buffer, and
    one that announces less hides a frame. -/
theorem refused_misleads :
    ¬ Along step ReadsInside (start ⟨0,0,.ofByte 0,0,0,0,0,0⟩) [.parse (announcing 0),.parse (announcing 3),.nextFrame] ∧
    outputs step returned (start ⟨0,0,.ofByte 0,0,0,0,0,0⟩)
      [.parse (announcing 3 ++ [1,0,0]),.parse (announcing 1),.nextFrame] = [none] ∧
    outputs step returned (start ⟨0,0,.ofByte 0,0,0,0,0,0⟩)
      ([.parse (announcing 3 ++ [1,0,0]),.parse (announcing 1),.nextFrame].filter heeded) = [some ⟨.ofByte 1,[]⟩] := by
  decide +kernel

end Rom.DecoderRuns
