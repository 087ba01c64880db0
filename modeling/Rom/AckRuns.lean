import Rom.AckTracker
import Rom.Runs

/-!
One sender and one receiver over a network that loses, reorders and duplicates
packets and ACKs. The sender numbers its packets from 0; every packet ever sent
may arrive at any time and any number of times, and so may every ACK ever built.
An acknowledgement is false when it marks a packet that the receiver never got.
The sender reads `largest_acked` as cumulative while the receiver reports the
largest number it got, so a gap below that number is acknowledged
(`acked_without_arrival`); `noFalseAck_iff` says exactly which runs are free of
false acknowledgements.
-/
namespace Rom.AckRuns
open Rom.Runs

/-- Both sides, the packets sent and the ACKs built. `received` records every
    number that the receiver was called with. -/
structure Link where
  sender : SendTracker := {}
  sentCount : Nat := 0
  receiver : RecvTracker := {}
  received : List UInt32 := []
  acks : List AckData := []

inductive LinkEvent where
  | send (timestampUs : UInt32) (size : UInt16)
  /-- The packet sent as the `n`-th arrives. -/
  | arrive (n : Nat)
  | buildAck (ackDelayUs : UInt32)
  /-- The ACK built as the `k`-th reaches the sender. -/
  | ackArrives (k : Nat) (now : UInt32)
  deriving DecidableEq, Repr

def step (s : Link) : LinkEvent → Link
  | .send timestampUs size =>
    { s with sender := s.sender.onPacketSent (UInt32.ofNat s.sentCount) timestampUs size, sentCount := s.sentCount + 1 }
  | .arrive n =>
    if n < s.sentCount then
      { s with receiver := s.receiver.onPacketReceived (UInt32.ofNat n), received := UInt32.ofNat n :: s.received }
    else s
  | .buildAck ackDelayUs => { s with acks := s.acks ++ [s.receiver.buildAck ackDelayUs] }
  | .ackArrives k now =>
    match s.acks[k]? with
    | some ack => { s with sender := (s.sender.onAckReceived ack.frame (some ack.sackRanges) now).1 }
    | none => s

/-- Only packets that the receiver was called with are marked as acknowledged. -/
def NoFalseAck (s : Link) : Prop :=
  ∀ info ∈ s.sender.sent, info.acked = true → info.packetNumber ∈ s.received

instance : DecidablePred NoFalseAck := fun s =>
  inferInstanceAs (Decidable (∀ info ∈ s.sender.sent, info.acked = true → info.packetNumber ∈ s.received))

/-- An ACK may be processed: no packet still missing at the receiver is at or
    before its largest acknowledged number, nor exactly `2^31` after a range of a
    single packet. -/
def AckDue (s : Link) : LinkEvent → Prop
  | .ackArrives k _ => ∀ ack ∈ s.acks[k]?, ∀ info ∈ s.sender.sent, info.packetNumber ∉ s.received →
      seqLe info.packetNumber ack.frame.largestAcked = false ∧
        ∀ r ∈ ack.sackRanges, r.start = r.last → info.packetNumber ≠ r.start + 0x80000000
  | _ => True

/-- Every ACK built counts its ranges, which lie in the receiver's window. -/
def AcksPlaced (s : Link) : Prop :=
  ∀ ack ∈ s.acks, ack.sackRanges.length = ack.frame.sackRangeCount.toNat ∧
    ∀ r ∈ ack.sackRanges, RecvTracker.Placed ack.frame.largestAcked r

theorem acksPlaced_step (s : Link) (e : LinkEvent) (placed : AcksPlaced s) : AcksPlaced (step s e) := by
  cases e with
  | send timestampUs size => exact placed
  | arrive n =>
    simp only [step]
    split
    · exact placed
    · exact placed
  | buildAck ackDelayUs =>
    intro ack member
    rcases List.mem_append.mp member with old | new
    · exact placed ack old
    · rw [List.mem_singleton] at new
      subst new
      exact RecvTracker.buildAck_ranges s.receiver ackDelayUs
  | ackArrives k now =>
    simp only [step]
    split
    · exact placed
    · exact placed

/-- What an ACK covers beyond the numbers up to its largest acknowledged one. -/
theorem covers_placed {ack : AckData} (counted : ack.sackRanges.length = ack.frame.sackRangeCount.toNat)
    (placed : ∀ r ∈ ack.sackRanges, RecvTracker.Placed ack.frame.largestAcked r) (n : UInt32) :
    SendTracker.covers ack.frame (some ack.sackRanges) n = false ↔
      seqLe n ack.frame.largestAcked = false ∧ ∀ r ∈ ack.sackRanges, r.start = r.last → n ≠ r.start + 0x80000000 := by
  have whole : ack.sackRanges.take ack.frame.sackRangeCount.toNat = ack.sackRanges :=
    List.take_of_length_le (by omega)
  simp only [SendTracker.covers,Option.getD_some,whole,Bool.or_eq_false_iff,List.any_eq_false]
  refine and_congr_right (fun after => ⟨?_,?_⟩)
  · rintro outside r member single rfl
    exact outside r member (RecvTracker.inRange_opposite single)
  · intro apart r member covered
    rcases RecvTracker.inRange_placed (placed r member) n covered with le | ⟨single,opposite⟩
    · rw [after] at le; cases le
    · exact apart r member single opposite

/-- Processing an ACK keeps acknowledgements true exactly when it is due. -/
theorem noFalseAck_ack {s : Link} (placed : AcksPlaced s) (sound : NoFalseAck s) (k : Nat) (now : UInt32) :
    NoFalseAck (step s (.ackArrives k now)) ↔ AckDue s (.ackArrives k now) := by
  simp only [step,AckDue]
  cases found : s.acks[k]? with
  | none => simpa using sound
  | some ack =>
    obtain ⟨counted,inside⟩ := placed ack (List.mem_of_getElem? found)
    simp only [Option.mem_def,Option.some.injEq,forall_eq',← covers_placed counted inside]
    unfold NoFalseAck
    simp only [SendTracker.onAckReceived_sent,SendTracker.mem_markWhere]
    constructor
    · intro all info member missing
      by_contra covered
      rw [Bool.not_eq_false] at covered
      have marked := all
        { info with acked := info.acked || SendTracker.covers ack.frame (some ack.sackRanges) info.packetNumber }
        ⟨info,member,rfl⟩ (by simp [covered])
      exact missing marked
    · rintro due _ ⟨info,member,rfl⟩ acked
      simp only [Bool.or_eq_true] at acked
      rcases acked with before | covered
      · exact sound info member before
      · by_contra missing
        rw [due info member missing] at covered
        cases covered

/-- One step keeps acknowledgements true exactly when the ACK it processes, if
    any, is due. -/
theorem noFalseAck_step (s : Link) (e : LinkEvent) (placed : AcksPlaced s) (sound : NoFalseAck s) :
    NoFalseAck (step s e) ↔ AckDue s e := by
  cases e with
  | send timestampUs size =>
    refine iff_of_true ?_ trivial
    intro info member acked
    rcases List.mem_append.mp member with old | new
    · exact sound info old acked
    · rw [List.mem_singleton] at new
      subst new
      cases acked
  | arrive n =>
    refine iff_of_true ?_ trivial
    simp only [step]
    split
    · intro info member acked
      exact List.mem_cons_of_mem _ (sound info member acked)
    · exact sound
  | buildAck ackDelayUs => exact iff_of_true sound trivial
  | ackArrives k now => exact noFalseAck_ack placed sound k now

/-- A run is free of false acknowledgements exactly when each ACK is processed
    only once everything at or before its largest acknowledged number, as far as
    it was sent, has arrived. -/
theorem noFalseAck_iff (es : List LinkEvent) : Everywhere step NoFalseAck {} es ↔ Along step AckDue {} es :=
  everywhere_iff_along acksPlaced_step noFalseAck_step (by simp [AcksPlaced]) (by simp [NoFalseAck])

/-- Two packets are sent, only the second arrives, and its ACK marks the first. -/
theorem acked_without_arrival :
    ¬ Everywhere step NoFalseAck {} [.send 0 100,.send 0 100,.arrive 1,.buildAck 0,.ackArrives 0 50] := by
  decide +kernel

end Rom.AckRuns
