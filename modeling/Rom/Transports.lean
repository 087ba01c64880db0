import Rom.Connection
import Rom.Channels
import Mathlib.Data.Nat.Digits.Defs
import Mathlib.Logic.Function.Basic

/-!
Transports inside a process: the loopback bus (`loopback_transport.h`,
`loopback_transport.cpp`), over which any number of transports send to each other, and
the bridge to input and output outside (`external_transport.h`,
`external_transport.cpp`). Both keep packets in queues, first in, first out. The bus
has a queue for each text of an endpoint, and texts tell endpoints apart
(`key_injective`).

What a call returns is `none` for -1. A receive that waits is the step in which it
returns.
-/
namespace Rom
open Std (ExtTreeMap LawfulEqCmp)
open Rom.Channels (Move)

/-- `std::to_string` of a number that is not negative. -/
def decimal (n : Nat) : Bytes :=
  if n = 0 then [48] else ((Nat.digits 10 n).map (fun d => UInt8.ofNat (48 + d))).reverse

theorem decimal_digit {n : Nat} {b : UInt8} (member : b ∈ decimal n) : 48 ≤ b.toNat ∧ b.toNat < 58 := by
  unfold decimal at member
  split at member
  · rw [List.mem_singleton.mp member]
    decide
  · obtain ⟨d,digit,same⟩ := List.mem_map.mp (List.mem_reverse.mp member)
    have small := Nat.digits_lt_base (by decide) digit
    rw [← same,UInt8.toNat_ofNat']
    omega

theorem decimal_injective {n m : Nat} (same : decimal n = decimal m) : n = m := by
  have digits : ∀ {k : Nat}, ∀ d ∈ Nat.digits 10 k, d < 10 := fun d member => Nat.digits_lt_base (by decide) member
  -- The text of 0 is the only one that starts with a 0, so its digits are told apart by it.
  have value : ∀ k, Nat.ofDigits 10 ((decimal k).reverse.map (fun b => b.toNat - 48)) = k := by
    intro k
    unfold decimal
    split
    · next zero => rw [zero]; rfl
    · rw [List.reverse_reverse,List.map_map]
      have back : ∀ d ∈ Nat.digits 10 k, ((fun b : UInt8 => b.toNat - 48) ∘ fun d => UInt8.ofNat (48 + d)) d = d := by
        intro d member
        have small := digits d member
        simp only [Function.comp_apply,UInt8.toNat_ofNat']
        omega
      rw [List.map_congr_left back,List.map_id',Nat.ofDigits_digits]
  rw [← value n,same,value m]

/-- Texts that end in a mark and a part without it agree in both parts. -/
theorem append_mark_inj {α : Type*} {mark : α} {xs ys ds es : List α} (noneLeft : mark ∉ ds) (noneRight : mark ∉ es)
    (same : xs ++ mark :: ds = ys ++ mark :: es) : xs = ys ∧ ds = es := by
  rcases List.append_eq_append_iff.mp same with ⟨between,right,left⟩ | ⟨between,left,right⟩
  · cases between with
    | nil => exact ⟨by simpa using right.symm,by simpa using left⟩
    | cons x between =>
      obtain ⟨_,rest⟩ := List.cons.inj left
      exact absurd (rest ▸ List.mem_append_right _ List.mem_cons_self) noneLeft
  · cases between with
    | nil => exact ⟨by simpa using left,by simpa using right.symm⟩
    | cons x between =>
      obtain ⟨_,rest⟩ := List.cons.inj right
      exact absurd (rest ▸ List.mem_append_right _ List.mem_cons_self) noneRight

structure LoopbackPacket where
  data : Bytes
  sender : Endpoint
  recipient : Endpoint
  deriving DecidableEq, Repr

/-- The receive queues of a bus. -/
abbrev LoopbackBus := ExtTreeMap Bytes (List LoopbackPacket)

namespace LoopbackBus

def key (ep : Endpoint) : Bytes := ep.address ++ 58 :: decimal ep.port.toNat

theorem key_injective {ep ep' : Endpoint} (same : key ep = key ep') : ep = ep' := by
  have free : ∀ n, (58 : UInt8) ∉ decimal n := by
    intro n member
    exact absurd (decimal_digit member).2 (by decide)
  obtain ⟨address,port⟩ := append_mark_inj (free _) (free _) same
  cases ep with
  | mk a p =>
  cases ep' with
  | mk a' p' =>
    have ports : p = p' := UInt16.toNat_inj.mp (decimal_injective port)
    rw [show a = a' from address,ports]

theorem key_eq_iff {ep ep' : Endpoint} : key ep = key ep' ↔ ep = ep' := ⟨key_injective,congrArg key⟩

/-- The packets that wait for an endpoint. -/
def queueAt (bus : LoopbackBus) (ep : Endpoint) : List LoopbackPacket := bus.getD (key ep) []

def deliver (bus : LoopbackBus) (pkt : LoopbackPacket) : LoopbackBus :=
  bus.insert (key pkt.recipient) (bus.getD (key pkt.recipient) [] ++ [pkt])

/-- Looking for a queue makes an empty one where there is none. -/
def receive (bus : LoopbackBus) (ep : Endpoint) : LoopbackBus × Option LoopbackPacket :=
  (bus.insert (key ep) (bus.getD (key ep) []).tail,(bus.getD (key ep) []).head?)

def removeEndpoint (bus : LoopbackBus) (ep : Endpoint) : LoopbackBus := bus.erase (key ep)

theorem queueAt_empty (ep : Endpoint) : queueAt ∅ ep = [] := by simp [queueAt]

theorem queueAt_deliver (bus : LoopbackBus) (pkt : LoopbackPacket) (ep : Endpoint) :
    (bus.deliver pkt).queueAt ep = if pkt.recipient = ep then bus.queueAt ep ++ [pkt] else bus.queueAt ep := by
  simp only [queueAt,deliver,ExtTreeMap.getD_insert,LawfulEqCmp.compare_eq_iff_eq,key_eq_iff]
  split
  · next same => rw [same]
  · rfl

theorem queueAt_receive (bus : LoopbackBus) (place ep : Endpoint) :
    (bus.receive place).1.queueAt ep = if place = ep then (bus.queueAt ep).tail else bus.queueAt ep := by
  simp only [queueAt,receive,ExtTreeMap.getD_insert,LawfulEqCmp.compare_eq_iff_eq,key_eq_iff]
  split
  · next same => rw [same]
  · rfl

theorem queueAt_removeEndpoint (bus : LoopbackBus) (place ep : Endpoint) :
    (bus.removeEndpoint place).queueAt ep = if place = ep then [] else bus.queueAt ep := by
  simp only [queueAt,removeEndpoint,ExtTreeMap.getD_erase,LawfulEqCmp.compare_eq_iff_eq,key_eq_iff]

end LoopbackBus

structure LoopbackTransport where
  localEndpoint : Endpoint := ⟨[],0⟩
  bound : Bool := false
  deriving DecidableEq, Repr

namespace LoopbackTransport

def bind (_t : LoopbackTransport) (ep : Endpoint) : LoopbackTransport := { localEndpoint := ep, bound := true }

def close (t : LoopbackTransport) (bus : LoopbackBus) : LoopbackTransport × LoopbackBus :=
  if t.bound then ({ t with bound := false },bus.removeEndpoint t.localEndpoint) else (t,bus)

def sendTo (t : LoopbackTransport) (bus : LoopbackBus) (data : Bytes) (remote : Endpoint) : LoopbackBus × Option Nat :=
  if t.bound then (bus.deliver ⟨data,t.localEndpoint,remote⟩,some data.length) else (bus,none)

/-- The bytes written to the buffer and who sent them. -/
def recvFrom (t : LoopbackTransport) (bus : LoopbackBus) (bufLen : Nat) : LoopbackBus × Option (Bytes × Endpoint) :=
  if t.bound then
    ((bus.receive t.localEndpoint).1,
      (bus.receive t.localEndpoint).2.map (fun pkt => (pkt.data.take (min bufLen pkt.data.length),pkt.sender)))
  else (bus,none)

end LoopbackTransport

/-- Any number of loopback transports over one bus. -/
structure Loopback (ι : Type*) where
  bus : LoopbackBus
  transports : ι → LoopbackTransport

namespace Loopback
open Rom.Runs Rom.Channels
variable {ι : Type*}

/-- The calls of the transports. What is destroyed is closed. -/
inductive Event (ι : Type*) where
  | bind (i : ι) (ep : Endpoint)
  | close (i : ι)
  | sendTo (i : ι) (data : Bytes) (remote : Endpoint)
  | recvFrom (i : ι) (bufLen : Nat)

def new : Loopback ι := ⟨∅,fun _ => {}⟩

def step [DecidableEq ι] (s : Loopback ι) : Event ι → Loopback ι
  | .bind i ep => { s with transports := Function.update s.transports i ((s.transports i).bind ep) }
  | .close i =>
    { bus := ((s.transports i).close s.bus).2
      transports := Function.update s.transports i ((s.transports i).close s.bus).1 }
  | .sendTo i data remote => { s with bus := ((s.transports i).sendTo s.bus data remote).1 }
  | .recvFrom i bufLen => { s with bus := ((s.transports i).recvFrom s.bus bufLen).1 }

def BoundAt (s : Loopback ι) (i : ι) (ep : Endpoint) : Prop :=
  (s.transports i).bound = true ∧ (s.transports i).localEndpoint = ep

instance (s : Loopback ι) (i : ι) (ep : Endpoint) : Decidable (s.BoundAt i ep) := inferInstanceAs (Decidable (_ ∧ _))

/-- What a call puts on the way to an endpoint. -/
def accepted (ep : Endpoint) (s : Loopback ι) : Event ι → List LoopbackPacket
  | .sendTo i data remote =>
    if ((s.transports i).sendTo s.bus data remote).2.isSome ∧ remote = ep then
      [⟨data,(s.transports i).localEndpoint,ep⟩]
    else []
  | _ => []

/-- What a call reads at an endpoint: by whom, the bytes and their sender. -/
def reads (ep : Endpoint) (s : Loopback ι) : Event ι → List (ι × Bytes × Endpoint)
  | .recvFrom i bufLen =>
    if (s.transports i).localEndpoint = ep then
      ((s.transports i).recvFrom s.bus bufLen).2.toList.map (fun r => (i,r))
    else []
  | _ => []

/-- How a call moves the queue of an endpoint. A reader is a transport with the length
    of its buffer. -/
def move (ep : Endpoint) (s : Loopback ι) : Event ι → Move LoopbackPacket (ι × Nat)
  | .bind _ _ => .keep
  | .close i => if s.BoundAt i ep then .clear else .keep
  | .sendTo i data remote =>
    if (s.transports i).bound = true ∧ remote = ep then .push ⟨data,(s.transports i).localEndpoint,ep⟩ else .keep
  | .recvFrom i bufLen => if s.BoundAt i ep then .pop (i,bufLen) else .keep

theorem accepted_eq_entering (ep : Endpoint) (s : Loopback ι) (e : Event ι) : accepted ep s e = (move ep s e).entering := by
  cases e with
  | bind i place => rfl
  | close i =>
    simp only [accepted,move]
    split <;> rfl
  | sendTo i data remote =>
    simp only [accepted,move,LoopbackTransport.sendTo]
    by_cases bound : (s.transports i).bound = true
    · simp only [bound,if_true,Option.isSome_some,true_and]
      split <;> rfl
    · simp [bound,Move.entering]
  | recvFrom i bufLen =>
    simp only [accepted,move]
    split <;> rfl

theorem reads_eq_taken (ep : Endpoint) (s : Loopback ι) (e : Event ι) :
    reads ep s e = (taken ((move ep s e).leaving (s.bus.queueAt ep))).map
      (fun r => (r.2.1,r.1.data.take r.2.2,r.1.sender)) := by
  cases e with
  | bind i place => rfl
  | close i =>
    simp only [reads,move]
    split
    · simp [Move.leaving,taken,List.filterMap_map]
    · rfl
  | sendTo i data remote =>
    simp only [reads,move]
    split <;> rfl
  | recvFrom i bufLen =>
    simp only [reads,move,LoopbackTransport.recvFrom,BoundAt]
    by_cases bound : (s.transports i).bound = true
    · simp only [bound,if_true,true_and]
      split
      · next here =>
        rw [here]
        simp only [LoopbackBus.receive,LoopbackBus.queueAt,Move.leaving]
        cases (ExtTreeMap.getD s.bus (LoopbackBus.key ep) []).head? with
        | none => rfl
        | some pkt => simp [taken]
      · rfl
    · simp [bound,Move.leaving,taken]

/-- Only the close of a transport bound to an endpoint empties its queue. -/
theorem move_ne_clear (ep : Endpoint) (s : Loopback ι) (e : Event ι) (closes : ∀ i, e = .close i → ¬s.BoundAt i ep) :
    move ep s e ≠ .clear := by
  cases e with
  | bind i place => simp [move]
  | close i =>
    rw [move,if_neg (closes i rfl)]
    simp
  | sendTo i data remote =>
    rw [move]
    split <;> simp
  | recvFrom i bufLen =>
    rw [move]
    split <;> simp

section
variable [DecidableEq ι]

theorem queueAt_step (ep : Endpoint) (s : Loopback ι) (e : Event ι) :
    (step s e).bus.queueAt ep = (move ep s e).apply (s.bus.queueAt ep) := by
  cases e with
  | bind i place => rfl
  | close i =>
    simp only [step,move,LoopbackTransport.close,BoundAt]
    by_cases bound : (s.transports i).bound = true
    · simp only [bound,if_true,LoopbackBus.queueAt_removeEndpoint,true_and]
      split <;> rfl
    · simp only [bound]
      rfl
  | sendTo i data remote =>
    simp only [step,move,LoopbackTransport.sendTo]
    by_cases bound : (s.transports i).bound = true
    · simp only [bound,if_true,LoopbackBus.queueAt_deliver,true_and]
      split
      · next same => rw [same]; rfl
      · rfl
    · simp only [bound]
      rfl
  | recvFrom i bufLen =>
    simp only [step,move,LoopbackTransport.recvFrom,BoundAt]
    by_cases bound : (s.transports i).bound = true
    · simp only [bound,if_true,LoopbackBus.queueAt_receive,true_and]
      split <;> rfl
    · simp only [bound]
      rfl

/-- The queue of an endpoint. -/
def channel (ep : Endpoint) : Channel (step (ι := ι)) LoopbackPacket (ι × Nat) where
  queue s := s.bus.queueAt ep
  move := move ep
  follows := queueAt_step ep

end
end Loopback

/-- A packet to or from outside, with the endpoint at the other side. -/
structure ExternalPacket where
  data : Bytes
  endpoint : Endpoint
  deriving DecidableEq, Repr

structure ExternalTransport where
  localEndpoint : Endpoint := ⟨[],0⟩
  bound : Bool := false
  recvQueue : List ExternalPacket := []
  sendQueue : List ExternalPacket := []
  deriving DecidableEq, Repr

namespace ExternalTransport
open Rom.Runs Rom.Channels

def bind (t : ExternalTransport) (ep : Endpoint) : ExternalTransport := { t with localEndpoint := ep, bound := true }

def close (t : ExternalTransport) : ExternalTransport := { t with bound := false, recvQueue := [], sendQueue := [] }

/-- There are no data where the pointer is null. -/
def sendTo (t : ExternalTransport) (data : Option Bytes) (remote : Endpoint) : ExternalTransport × Option Nat :=
  match data with
  | none => (t,none)
  | some data =>
    if t.bound = false ∨ data.length = 0 then (t,none)
    else ({ t with sendQueue := t.sendQueue ++ [⟨data,remote⟩] },some data.length)

def recvFrom (t : ExternalTransport) (bufLen : Nat) : ExternalTransport × Option (Bytes × Endpoint) :=
  if t.bound = false then (t,none)
  else
    match t.recvQueue with
    | [] => (t,none)
    | pkt :: rest => ({ t with recvQueue := rest },some (pkt.data.take (min bufLen pkt.data.length),pkt.endpoint))

def pushRecv (t : ExternalTransport) (data : Bytes) (sender : Endpoint) : ExternalTransport :=
  { t with recvQueue := t.recvQueue ++ [⟨data,sender⟩] }

def popSend (t : ExternalTransport) : ExternalTransport × Option ExternalPacket :=
  match t.sendQueue with
  | [] => (t,none)
  | pkt :: rest => ({ t with sendQueue := rest },some pkt)

inductive Event where
  | bind (ep : Endpoint)
  | close
  | sendTo (data : Option Bytes) (remote : Endpoint)
  | recvFrom (bufLen : Nat)
  | pushRecv (data : Bytes) (sender : Endpoint)
  | popSend

def step (t : ExternalTransport) : Event → ExternalTransport
  | .bind ep => t.bind ep
  | .close => t.close
  | .sendTo data remote => (t.sendTo data remote).1
  | .recvFrom bufLen => (t.recvFrom bufLen).1
  | .pushRecv data sender => t.pushRecv data sender
  | .popSend => t.popSend.1

/-- What the owner reads: the bytes and their sender. -/
def reads (t : ExternalTransport) : Event → List (Bytes × Endpoint)
  | .recvFrom bufLen => (t.recvFrom bufLen).2.toList
  | _ => []

/-- What is taken outside. -/
def pops (t : ExternalTransport) : Event → List ExternalPacket
  | .popSend => t.popSend.2.toList
  | _ => []

/-- What comes from outside. -/
def pushed (_t : ExternalTransport) : Event → List ExternalPacket
  | .pushRecv data sender => [⟨data,sender⟩]
  | _ => []

/-- What the owner sends and is told so. -/
def accepted (t : ExternalTransport) : Event → List ExternalPacket
  | .sendTo data remote => if (t.sendTo data remote).2.isSome then [⟨data.getD [],remote⟩] else []
  | _ => []

/-- The queue inwards, read with the length of a buffer. -/
def inward : Channel step ExternalPacket Nat where
  queue t := t.recvQueue
  move t
    | .pushRecv data sender => .push ⟨data,sender⟩
    | .recvFrom bufLen => if t.bound then .pop bufLen else .keep
    | .close => .clear
    | _ => .keep
  follows t e := by
    cases e with
    | bind ep => rfl
    | close => rfl
    | sendTo data remote =>
      simp only [step,sendTo]
      split
      · rfl
      · split <;> rfl
    | recvFrom bufLen =>
      simp only [step,recvFrom]
      cases bound : t.bound with
      | false => rfl
      | true => cases queue : t.recvQueue <;> simp [Move.apply,queue]
    | pushRecv data sender => rfl
    | popSend =>
      simp only [step,popSend]
      split <;> rfl

/-- The queue outwards. -/
def outward : Channel step ExternalPacket Unit where
  queue t := t.sendQueue
  move t
    | .sendTo data remote => if (t.sendTo data remote).2.isSome then .push ⟨data.getD [],remote⟩ else .keep
    | .popSend => .pop ()
    | .close => .clear
    | _ => .keep
  follows t e := by
    cases e with
    | bind ep => rfl
    | close => rfl
    | sendTo data remote =>
      simp only [step]
      cases data with
      | none => rfl
      | some data =>
        simp only [sendTo]
        split <;> rfl
    | recvFrom bufLen =>
      simp only [step,recvFrom]
      split
      · rfl
      · split <;> rfl
    | pushRecv data sender => rfl
    | popSend =>
      simp only [step,popSend]
      cases queue : t.sendQueue <;> simp [Move.apply,queue]

theorem pushed_eq_entering (t : ExternalTransport) (e : Event) : pushed t e = (inward.move t e).entering := by
  cases e with
  | recvFrom bufLen =>
    simp only [pushed,inward]
    split <;> rfl
  | _ => rfl

theorem accepted_eq_entering (t : ExternalTransport) (e : Event) : accepted t e = (outward.move t e).entering := by
  cases e with
  | sendTo data remote =>
    simp only [accepted,outward]
    split <;> rfl
  | _ => rfl

theorem reads_eq_taken (t : ExternalTransport) (e : Event) :
    reads t e = (taken ((inward.move t e).leaving (inward.queue t))).map (fun r => (r.1.data.take r.2,r.1.endpoint)) := by
  cases e with
  | close => simp [reads,inward,Move.leaving,taken,List.filterMap_map]
  | recvFrom bufLen =>
    simp only [reads,inward,recvFrom]
    cases bound : t.bound with
    | false => rfl
    | true => cases queue : t.recvQueue <;> simp [Move.leaving,taken]
  | _ => rfl

theorem pops_eq_taken (t : ExternalTransport) (e : Event) :
    pops t e = (taken ((outward.move t e).leaving (outward.queue t))).map Prod.fst := by
  cases e with
  | close => simp [pops,outward,Move.leaving,taken,List.filterMap_map]
  | sendTo data remote =>
    simp only [pops,outward]
    split <;> rfl
  | popSend =>
    simp only [pops,outward,popSend]
    cases queue : t.sendQueue <;> simp [Move.leaving,taken]
  | _ => rfl

/-- Over every run, the owner reads exactly what was pushed from outside, in order and
    cut to the buffers, and what is popped outside is exactly what the owner sent and
    was told so, in order. Only a close drops anything, in either direction. -/
theorem external_exact (es : List Event) :
    (inward.gone {} es).map Prod.fst ++ (run step {} es).recvQueue = outputs step pushed {} es ∧
    outputs step reads {} es = (taken (inward.gone {} es)).map (fun r => (r.1.data.take r.2,r.1.endpoint)) ∧
    (outward.gone {} es).map Prod.fst ++ (run step {} es).sendQueue = outputs step accepted {} es ∧
    outputs step pops {} es = (taken (outward.gone {} es)).map Prod.fst ∧
    ((∀ e ∈ es, e ≠ .close) →
      (taken (inward.gone {} es)).map Prod.fst ++ (run step {} es).recvQueue = outputs step pushed {} es ∧
      (taken (outward.gone {} es)).map Prod.fst ++ (run step {} es).sendQueue = outputs step accepted {} es) := by
  have inwards : (inward.gone {} es).map Prod.fst ++ (run step {} es).recvQueue = outputs step pushed {} es := by
    rw [show pushed = fun t e => (inward.move t e).entering from funext₂ pushed_eq_entering]
    exact inward.gone_append {} es
  have outwards : (outward.gone {} es).map Prod.fst ++ (run step {} es).sendQueue = outputs step accepted {} es := by
    rw [show accepted = fun t e => (outward.move t e).entering from funext₂ accepted_eq_entering]
    exact outward.gone_append {} es
  refine ⟨inwards,inward.outputs_eq_taken reads_eq_taken {} es,outwards,outward.outputs_eq_taken pops_eq_taken {} es,?_⟩
  intro stays
  have always : Along step (fun _ _ => True) ({} : ExternalTransport) es :=
    along_of_forall (I := fun _ => True) (fun _ _ _ => trivial) (fun _ _ _ => trivial) trivial
  have along := always.and_of_forall stays
  have inNever : ∀ t e, True ∧ e ≠ Event.close → inward.move t e ≠ .clear := by
    rintro t e ⟨_,other⟩
    cases e with
    | close => exact absurd rfl other
    | recvFrom bufLen =>
      simp only [inward]
      split <;> simp
    | _ => simp [inward]
  have outNever : ∀ t e, True ∧ e ≠ Event.close → outward.move t e ≠ .clear := by
    rintro t e ⟨_,other⟩
    cases e with
    | close => exact absurd rfl other
    | sendTo data remote =>
      simp only [outward]
      split <;> simp
    | _ => simp [outward]
  rw [inward.taken_gone inNever along,outward.taken_gone outNever along]
  exact ⟨inwards,outwards⟩

end ExternalTransport
end Rom
