import Rom.Handshake
import Rom.Runs

/-!
The life of a connection: the calls that move it through its states, packets from
others among them. An established connection should only ever be closed, and a
closed one stay closed. A packet that asks for a connection is taken in every state
and takes it back to where the handshake begins (`established_taken_back`);
nothing else does, so the lives that go forward are exactly those without such a
packet after the connection is established (`goes_forward_iff`).
-/
namespace Rom.Lifecycle
open Rom.Runs Handshake

/-- A call on a connection. -/
inductive ConnectionCall where
  | initiate (localConnId : UInt16) (remote : Endpoint) (now : Nat)
  | accept (localConnId remoteConnId : UInt16) (remote : Endpoint) (now : Nat)
  | onAccept (assignedConnId : UInt16) (serverTimestamp : UInt32)
  | close (reason : CloseReason)
  | processPacket (data : Bytes)
  deriving DecidableEq

def step (P : Primitives) (c : Connection) : ConnectionCall → Connection
  | .initiate localConnId remote now => (c.initiate localConnId remote now).1
  | .accept localConnId remoteConnId remote now => (c.accept localConnId remoteConnId remote now).1
  | .onAccept assignedConnId serverTimestamp => (c.onAccept assignedConnId serverTimestamp).1
  | .close reason => (c.close reason).1
  | .processPacket data => (processPacket P c data).2

/-- What may follow a state: an established connection is only closed, and a
    closed one stays so. -/
def Forward : ConnectionState → ConnectionState → Prop
  | .connected, next => next = .connected ∨ next = .closing ∨ next = .closed
  | .closing, next => next = .closing ∨ next = .closed
  | .closed, next => next = .closed
  | _, _ => True

instance : DecidableRel Forward
  | .connected, next => inferInstanceAs (Decidable (next = .connected ∨ next = .closing ∨ next = .closed))
  | .closing, next => inferInstanceAs (Decidable (next = .closing ∨ next = .closed))
  | .closed, next => inferInstanceAs (Decidable (next = .closed))
  | .idle, _ => isTrue trivial
  | .connecting, _ => isTrue trivial
  | .accepting, _ => isTrue trivial

theorem forward_refl (s : ConnectionState) : Forward s s := by
  cases s <;> simp [Forward]

theorem forward_trans {s t u : ConnectionState} (first : Forward s t) (second : Forward t u) : Forward s u := by
  cases s with
  | connected =>
    rcases first with rfl | rfl | rfl
    · exact second
    · exact .inr second
    · exact .inr (.inr second)
  | closing =>
    rcases first with rfl | rfl
    · exact second
    · exact .inr second
  | closed =>
    cases first
    exact second
  | _ => trivial

/-- The whole life goes forward: what once holds of the state keeps binding it. -/
def GoesForward (P : Primitives) (c : Connection) (calls : List ConnectionCall) : Prop :=
  OneWay (step P) (fun c c' => Forward c.state c'.state) c calls

/-- The handshake is over. -/
def Established (c : Connection) : Prop := c.state = .connected ∨ c.state = .closing ∨ c.state = .closed

/-- The frame is of a kind that a handshake looks at. -/
def ofHandshake (f : Frame) : Bool := [FrameType.connect,.accept,.close,.ping,.pong].contains f.type

/-- The bytes are a packet with a right checksum, and its first frame of a handshake is
    a whole CONNECT with the magic. -/
def Asks (P : Primitives) (data : Bytes) : Prop :=
  ∃ d ∈ PacketDecoder.ofPacket data, d.verifyChecksum P = true ∧ ∃ f ∈ d.frames.find? ofHandshake,
    f.type = .connect ∧ ConnectFrame.wireSize ≤ f.payload.length ∧ readU32 f.payload = connectMagic

/-- The call is no packet that asks for a connection when the handshake is over. -/
def NoLateConnect (P : Primitives) (c : Connection) : ConnectionCall → Prop
  | .processPacket data => Established c → ¬ Asks P data
  | _ => True

theorem not_established_of_state {c : Connection} (early : c.state = .idle ∨ c.state = .connecting ∨ c.state = .accepting) :
    ¬ Established c := by
  rintro (late | late | late)
  all_goals
    rw [late] at early
    rcases early with early | early | early <;> cases early

theorem forward_of_early {c : Connection} (early : ¬ Established c) (next : ConnectionState) : Forward c.state next := by
  cases state : c.state with
  | connected => exact absurd (.inl state) early
  | closing => exact absurd (.inr (.inl state)) early
  | closed => exact absurd (.inr (.inr state)) early
  | _ => trivial

/-- Packets of the other kinds go forward. -/
theorem forward_effect {c : Connection} {event : HandshakeEvent} (other : event.result ≠ .connectReceived) :
    Forward c.state (event.effect c).state := by
  rw [HandshakeEvent.effect]
  split
  · next same => exact absurd same other
  · rw [Connection.onAccept]
    split
    · exact forward_refl _
    · next connecting =>
      rw [not_not.mp connecting]
      trivial
  · cases c.state <;> simp [Forward,Connection.onClose]
  · exact forward_refl _

theorem processFrame_isSome (c : Connection) (f : Frame) : (processFrame c f).isSome = ofHandshake f := by
  unfold processFrame ofHandshake
  cases f.type <;> rfl

/-- The loop over the frames stops at the first frame of a handshake. -/
theorem findSome_processFrame (c : Connection) (frames : List Frame) :
    frames.findSome? (processFrame c) = (frames.find? ofHandshake).bind (processFrame c) := by
  induction frames with
  | nil => rfl
  | cons f frames ih =>
    rw [List.findSome?_cons,List.find?_cons,← processFrame_isSome c f]
    cases processed : processFrame c f with
    | none => exact ih
    | some result => exact processed.symm

/-- Of the frames of a handshake, a whole CONNECT with the magic asks for a connection. -/
theorem processFrame_asks {c : Connection} {f : Frame} {result : HandshakeEvent × Connection}
    (processed : processFrame c f = some result) :
    result.1.result = .connectReceived ↔
      f.type = .connect ∧ ConnectFrame.wireSize ≤ f.payload.length ∧ readU32 f.payload = connectMagic := by
  have other {F : Type} (decoded : Option F) {read : Connection → F → HandshakeEvent × Connection}
      (reads : ∀ g, (read c g).1.result ≠ .connectReceived) : (onFrame c decoded read).1.result ≠ .connectReceived := by
    cases decoded with
    | none => exact fun same => by cases same
    | some g => exact reads g
  rw [processFrame] at processed
  split at processed
  · next type =>
    rw [← Option.some.inj processed,type,ConnectFrame.decode]
    by_cases short : f.payload.length < ConnectFrame.wireSize
    · rw [if_pos short]
      exact iff_of_false (fun same => by cases same) (fun whole => absurd short (Nat.not_lt.mpr whole.2.1))
    · rw [if_neg short,onFrame,onConnectFrame]
      by_cases magic : readU32 f.payload = connectMagic
      · rw [if_neg (not_not.mpr magic)]
        exact iff_of_true rfl ⟨rfl,Nat.not_lt.mp short,magic⟩
      · rw [if_pos magic]
        exact iff_of_false (fun same => by cases same) (fun whole => magic whole.2.2)
  case h_6 => cases processed
  -- frames of the other kinds are answered, but ask for nothing
  all_goals
    next type =>
      rw [← Option.some.inj processed,type]
      exact iff_of_false (other _ (fun _ same => by cases same)) (fun whole => by cases whole.1)

theorem connectReceived_iff (P : Primitives) (c : Connection) (data : Bytes) :
    (processPacket P c data).1.result = .connectReceived ↔ Asks P data := by
  rw [processPacket,Asks]
  cases PacketDecoder.ofPacket data with
  | none => simp
  | some d =>
    simp only [Option.mem_def,Option.some.injEq,exists_eq_left']
    cases checked : d.verifyChecksum P with
    | false => simp
    | true =>
      simp only [Bool.not_true,Bool.false_eq_true,if_false,true_and,processFrames,findSome_processFrame]
      cases first : d.frames.find? ofHandshake with
      | none => simp
      | some f =>
        have counts := (processFrame_isSome (c.updateRecvPacketNumber d.header.packetNumber) f).trans
          (List.find?_some first)
        obtain ⟨result,processed⟩ := Option.isSome_iff_exists.mp counts
        simp only [Option.bind_some,processed,Option.getD_some,Option.some.injEq,exists_eq_left']
        exact processFrame_asks processed

theorem forward_processPacket_iff (P : Primitives) (c : Connection) (data : Bytes) :
    Forward c.state (processPacket P c data).2.state ↔ NoLateConnect P c (.processPacket data) := by
  obtain ⟨n,effect⟩ := processPacket_effect P c data
  rw [NoLateConnect,← connectReceived_iff P c data]
  by_cases asks : (processPacket P c data).1.result = .connectReceived
  · have back : (processPacket P c data).2.state = .accepting := by
      rw [effect,HandshakeEvent.effect,asks]
      rfl
    rw [back]
    constructor
    · rintro forward (late | late | late)
      all_goals
        rw [late] at forward
        simp [Forward] at forward
    · exact fun early => forward_of_early (fun late => early late asks) _
  · rw [effect]
    exact ⟨fun _ _ => asks,fun _ => forward_effect (c := { c with recvPktNum := n }) asks⟩

/-- A step goes forward unless it takes a late request for a connection. -/
theorem forward_step_iff (P : Primitives) (c : Connection) (call : ConnectionCall) :
    Forward c.state (step P c call).state ↔ NoLateConnect P c call := by
  cases call with
  | processPacket data => exact forward_processPacket_iff P c data
  | initiate localConnId remote now =>
    refine ⟨fun _ => trivial,fun _ => ?_⟩
    rw [step,Connection.initiate]
    split
    · exact forward_refl _
    · next idle => exact forward_of_early (not_established_of_state (.inl (not_not.mp idle))) _
  | accept localConnId remoteConnId remote now =>
    refine ⟨fun _ => trivial,fun _ => ?_⟩
    rw [step,Connection.accept]
    split
    · exact forward_refl _
    · next early =>
      refine forward_of_early (not_established_of_state ?_) _
      by_cases idle : c.state = .idle
      · exact .inl idle
      · exact .inr (.inr (not_not.mp (fun other => early ⟨idle,other⟩)))
  | onAccept assignedConnId serverTimestamp =>
    refine ⟨fun _ => trivial,fun _ => ?_⟩
    rw [step,Connection.onAccept]
    split
    · exact forward_refl _
    · next connecting => exact forward_of_early (not_established_of_state (.inr (.inl (not_not.mp connecting)))) _
  | close reason =>
    refine ⟨fun _ => trivial,fun _ => ?_⟩
    rw [step,Connection.close]
    split
    · exact forward_refl _
    · next connected =>
      rw [not_not.mp connected]
      exact .inr (.inl rfl)

/-- Which lives of a connection go forward. -/
theorem goes_forward_iff (P : Primitives) (c : Connection) (calls : List ConnectionCall) :
    GoesForward P c calls ↔ Along (step P) (NoLateConnect P) c calls := by
  have steps : GoesForward P c calls ↔ Along (step P) (fun c call => Forward c.state (step P c call).state) c calls :=
    oneWay_iff_along (fun c => forward_refl c.state) (fun _ _ _ => forward_trans)
  exact steps.trans
    (along_congr (I := fun _ => True) (fun _ _ _ => trivial) (fun c call _ => forward_step_iff P c call) trivial)

/-- The first packet of a new connection. -/
def freshRequest : Bytes := (buildConnectPacket plain (.new 0) 0).1

/-- A request for a connection takes an established connection back, and one that
    was closed on the other side as well, which can then be accepted once more. -/
theorem established_taken_back :
    ¬ GoesForward plain (.new 0) [.accept 1 0 ⟨[],0⟩ 0,.processPacket freshRequest] ∧
      ¬ GoesForward plain (.new 0)
        [.accept 1 0 ⟨[],0⟩ 0,.processPacket (buildClosePacket plain (.new 0) .normal 0).1,.processPacket freshRequest,
          .accept 2 0 ⟨[],0⟩ 0] := by
  constructor
  · intro forward
    have back := forward [.accept 1 0 ⟨[],0⟩ 0] [.processPacket freshRequest] [] rfl
    revert back
    decide +kernel
  · intro forward
    have revived := forward [.accept 1 0 ⟨[],0⟩ 0,.processPacket (buildClosePacket plain (.new 0) .normal 0).1]
      [.processPacket freshRequest,.accept 2 0 ⟨[],0⟩ 0] [] rfl
    revert revived
    decide +kernel

end Rom.Lifecycle
