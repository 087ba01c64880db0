import Rom.NodeCatchUp
import Rom.NodeSends
import Rom.Refinement
import Rom.Transports

/-!
Nodes over a loopback bus. Each node has a transport bound at a place of its own; the
calls of all nodes are made one after the other, in any order, and each runs to its
end: what it sends is put into the queues of the bus, and what it receives comes from
the queue of its place. This is the network of `Rom.NodeNetwork` with the bus for the
network (`bus_run`), and on the bus there is only what nodes have sent, so that no
assumption on the network is left but that signatures are right (`Secure`). Hence
counts are never too large, and a node that has emptied its queue has the exact total
of all who have flushed to it (`loopback_converges`).
-/
namespace Rom

/-! ### What a call sends and receives -/

namespace Links

/-- A poll of a handshake goes on to wait for a packet. -/
def waits (l : Links) (expected : HandshakeState) : Bool :=
  l.hsState == expected &&
    match l.connMgr.get 0 with
    | none => false
    | some mc => mc.conn.state != .connected

/-- Whether a call gets to `recv_from`. -/
def receives (P : Primitives) (l : Links) (x : Exchange) : LinkCall → Bool
  | .connect remote => ((l.openSlot (x.clock 0)).dial P 0 remote x).ok
  | .acceptFrom => true
  | .connectPoll => l.waits .connecting
  | .acceptPoll => l.waits .accepting
  | .connectTo remoteNodeId remote =>
    let (mgr,added) := l.connMgr.add remoteNodeId (x.clock 0)
    added && (dial P { l with connMgr := mgr } remoteNodeId remote x).ok
  | .acceptNode remoteNodeId => (l.connMgr.add remoteNodeId (x.clock 0)).2
  | _ => false

end Links

namespace NodeNetwork
open Std Rom.Runs Peer
open Rom.PeerSend (deltaFrame openCall)

namespace NodeCall

/-- The packets that a call hands to the transport. -/
def sends (P : Primitives) (p : Peer) : NodeCall → List (Bytes × Endpoint)
  | .link x call => (p.links.call P x call).sent
  | .flush rank clock => (p.flush P rank clock).sent
  | .poll rank x => (p.poll P rank x).sent
  | _ => []

def receives (P : Primitives) (p : Peer) : NodeCall → Bool
  | .link x call => p.links.receives P x call
  | .poll _ _ => p.links.connMgr.hasConnections
  | _ => false

/-- The call sends before it waits. -/
def dials : NodeCall → Bool
  | .link _ (.connect _) => true
  | .link _ (.connectTo _ _) => true
  | _ => false

/-- The call on a transport that sends, and receives this. -/
def answered (reply : Option (Bytes × Endpoint)) : NodeCall → NodeCall
  | .link x call => .link { x with sends := true, reply := reply } call
  | .poll rank x => .poll rank { x with sends := true, reply := reply }
  | call => call

end NodeCall

/-- The nodes and the bus. -/
structure OnBus (ι : Type*) where
  nodes : Nodes ι
  loopback : Loopback ι

section
variable {ι : Type*} [DecidableEq ι] (P : Primitives)

def sendAll (i : ι) (sent : List (Bytes × Endpoint)) : List (Loopback.Event ι) :=
  sent.map (fun pkt => .sendTo i pkt.1 pkt.2)

/-- The bus when the call waits. -/
def dialed (s : OnBus ι) (e : Event ι) : Loopback ι :=
  run Loopback.step s.loopback
    (sendAll e.node (if e.call.dials then (e.call.answered none).sends P (s.nodes.peers e.node) else []))

/-- What the call receives. -/
def reply (s : OnBus ι) (e : Event ι) : Option (Bytes × Endpoint) :=
  if (e.call.answered none).receives P (s.nodes.peers e.node) then
    (((dialed P s e).transports e.node).recvFrom (dialed P s e).bus maxPacketSize).2
  else none

/-- The call as it goes. -/
def onBus (s : OnBus ι) (e : Event ι) : Event ι := ⟨e.node,e.call.answered (reply P s e)⟩

/-- The bus after the call has received. -/
def received (s : OnBus ι) (e : Event ι) : Loopback ι :=
  if (e.call.answered none).receives P (s.nodes.peers e.node) then
    Loopback.step (dialed P s e) (.recvFrom e.node maxPacketSize)
  else dialed P s e

def busStep (s : OnBus ι) (e : Event ι) : OnBus ι where
  nodes := step P s.nodes (onBus P s e)
  loopback := run Loopback.step (received P s e)
    (sendAll e.node (if e.call.dials then [] else (onBus P s e).call.sends P (s.nodes.peers e.node)))

end

/-! ### Queues -/

section
variable {ι : Type*} [DecidableEq ι] {P : Primitives} {places : ι → Endpoint}

/-- Every transport is bound at its place. -/
def Bound (places : ι → Endpoint) (l : Loopback ι) : Prop := l.transports = fun i => ⟨places i,true⟩

theorem bound_sendAll {l : Loopback ι} (bound : Bound places l) (i : ι) (sent : List (Bytes × Endpoint)) :
    Bound places (run Loopback.step l (sendAll i sent)) := by
  induction sent generalizing l with
  | nil => exact bound
  | cons pkt sent ih => exact ih bound

/-- What is sent stands behind what was in the queue. -/
theorem queueAt_sendAll {l : Loopback ι} (bound : Bound places l) (i : ι) (sent : List (Bytes × Endpoint)) (ep : Endpoint) :
    (run Loopback.step l (sendAll i sent)).bus.queueAt ep = l.bus.queueAt ep ++
      (sent.filter (fun pkt => pkt.2 = ep)).map (fun pkt => ⟨pkt.1,places i,ep⟩) := by
  induction sent generalizing l with
  | nil => exact (List.append_nil _).symm
  | cons pkt sent ih =>
    have first : (Loopback.step l (.sendTo i pkt.1 pkt.2)).bus.queueAt ep =
        if pkt.2 = ep then l.bus.queueAt ep ++ [⟨pkt.1,places i,pkt.2⟩] else l.bus.queueAt ep := by
      rw [Loopback.step,LoopbackTransport.sendTo,bound]
      exact LoopbackBus.queueAt_deliver _ _ _
    have later := ih (show Bound places (Loopback.step l (.sendTo i pkt.1 pkt.2)) from bound)
    refine later.trans ?_
    rw [first,List.filter_cons]
    by_cases here : pkt.2 = ep
    · simp [here]
    · simp [here]

omit [DecidableEq ι] in
theorem recvFrom_bound {l : Loopback ι} (bound : Bound places l) (i : ι) :
    ((l.transports i).recvFrom l.bus maxPacketSize).2 =
      (l.bus.queueAt (places i)).head?.map (fun pkt => (pkt.data.take (min maxPacketSize pkt.data.length),pkt.sender)) := by
  rw [bound]
  rfl

theorem queueAt_recvFrom {l : Loopback ι} (bound : Bound places l) (i : ι) (ep : Endpoint) :
    (Loopback.step l (.recvFrom i maxPacketSize)).bus.queueAt ep =
      if places i = ep then (l.bus.queueAt ep).tail else l.bus.queueAt ep := by
  rw [Loopback.step,LoopbackTransport.recvFrom,bound]
  exact LoopbackBus.queueAt_receive _ _ _

variable {s : OnBus ι} (bound : Bound places s.loopback) (e : Event ι)
include bound

theorem bound_dialed : Bound places (dialed P s e) := bound_sendAll bound _ _

theorem bound_received : Bound places (received P s e) := by
  rw [received]
  split
  · exact bound_dialed bound e
  · exact bound_dialed bound e

theorem bound_step : Bound places (busStep P s e).loopback := bound_sendAll (bound_received bound e) _ _

/-- What waits after a call waited before it, or is sent by the call. -/
theorem mem_queue_step {ep : Endpoint} {pkt : LoopbackPacket} (member : pkt ∈ (busStep P s e).loopback.bus.queueAt ep) :
    pkt ∈ s.loopback.bus.queueAt ep ∨
      ∃ reply, (pkt.data,ep) ∈ (e.call.answered reply).sends P (s.nodes.peers e.node) := by
  have sent : ∀ {sent : List (Bytes × Endpoint)},
      pkt ∈ (sent.filter (fun pkt => pkt.2 = ep)).map (fun pkt => (⟨pkt.1,places e.node,ep⟩ : LoopbackPacket)) →
      (pkt.data,ep) ∈ sent := by
    intro sent member
    obtain ⟨⟨data,remote⟩,listed,rfl⟩ := List.mem_map.mp member
    obtain ⟨listed,here⟩ := List.mem_filter.mp listed
    exact of_decide_eq_true here ▸ listed
  have before : pkt ∈ (dialed P s e).bus.queueAt ep → pkt ∈ s.loopback.bus.queueAt ep ∨
      ∃ reply, (pkt.data,ep) ∈ (e.call.answered reply).sends P (s.nodes.peers e.node) := by
    intro member
    rw [dialed,queueAt_sendAll bound] at member
    rcases List.mem_append.mp member with old | new
    · exact .inl old
    · have listed := sent new
      split at listed
      · exact .inr ⟨none,listed⟩
      · cases listed
  rw [busStep,queueAt_sendAll (bound_received bound e)] at member
  rcases List.mem_append.mp member with old | new
  · rw [received] at old
    split at old
    · rw [queueAt_recvFrom (bound_dialed bound e)] at old
      split at old
      · exact before (List.mem_of_mem_tail old)
      · exact before old
    · exact before old
  · have listed := sent new
    split at listed
    · cases listed
    · exact .inr ⟨_,listed⟩

/-- What waits at a place goes on to wait there, unless the node at the place receives
    it. -/
theorem kept_step {i : ι} (apart : Function.Injective places) {pkt : LoopbackPacket}
    (member : pkt ∈ s.loopback.bus.queueAt (places i)) :
    pkt ∈ (busStep P s e).loopback.bus.queueAt (places i) ∨
      e.node = i ∧ reply P s e = some (pkt.data.take (min maxPacketSize pkt.data.length),pkt.sender) := by
  have before : pkt ∈ (dialed P s e).bus.queueAt (places i) := by
    rw [dialed,queueAt_sendAll bound]
    exact List.mem_append_left _ member
  rw [busStep,queueAt_sendAll (bound_received bound e)]
  by_cases receives : (e.call.answered none).receives P (s.nodes.peers e.node) = true
  · rw [received,if_pos receives,queueAt_recvFrom (bound_dialed bound e)]
    by_cases here : places e.node = places i
    · rw [if_pos here]
      cases queue : (dialed P s e).bus.queueAt (places i) with
      | nil =>
        rw [queue] at before
        cases before
      | cons first rest =>
        rw [queue] at before
        rcases List.mem_cons.mp before with rfl | later
        · refine .inr ⟨apart here,?_⟩
          rw [reply,if_pos receives,recvFrom_bound (bound_dialed bound e),here,queue]
          rfl
        · exact .inl (List.mem_append_left _ later)
    · rw [if_neg here]
      exact .inl (List.mem_append_left _ before)
  · rw [received,if_neg receives]
    exact .inl (List.mem_append_left _ before)

/-- What a flush sends to a place waits there. -/
theorem flushed_waits {rank : UInt16 → Nat} {clock : Nat → Nat} (flush : e.call = .flush rank clock) {data : Bytes}
    {ep : Endpoint} (sent : (data,ep) ∈ (Peer.flush P (s.nodes.peers e.node) rank clock).sent) :
    ⟨data,places e.node,ep⟩ ∈ (busStep P s e).loopback.bus.queueAt ep := by
  rw [busStep,queueAt_sendAll (bound_received bound e)]
  refine List.mem_append_right _ (List.mem_map.mpr ⟨(data,ep),List.mem_filter.mpr ⟨?_,decide_eq_true rfl⟩,rfl⟩)
  rw [onBus,flush]
  exact sent

/-- What is received waited at the place of the node. -/
theorem reply_mem {data : Bytes} {from_ : Endpoint} (gets : reply P s e = some (data,from_)) :
    ∃ pkt ∈ (dialed P s e).bus.queueAt (places e.node),
      data = pkt.data.take (min maxPacketSize pkt.data.length) ∧ from_ = pkt.sender := by
  rw [reply] at gets
  split at gets
  · rw [recvFrom_bound (bound_dialed bound e)] at gets
    obtain ⟨pkt,first,same⟩ := Option.map_eq_some_iff.mp gets
    cases same
    exact ⟨pkt,List.mem_of_head? first,rfl,rfl⟩
  · cases gets

end

/-! ### The bus as a network -/

/-- Signatures are right, and no two nodes have the same key. -/
structure Secure {ι : Type*} (P : Primitives) (s : Nodes ι) : Prop where
  genuine : ∀ j, P.Genuine (s.peers j).keys
  distinct : ∀ i j, (s.peers i).keys.publicKey = (s.peers j).keys.publicKey → i = j

/-- On the bus there are packets of nodes, with deltas that they have signed. -/
structure Clean {ι : Type*} (P : Primitives) (places : ι → Endpoint) (s : OnBus ι) : Prop where
  secure : Secure P s.nodes
  bound : Bound places s.loopback
  fits : ∀ ep, ∀ pkt ∈ s.loopback.bus.queueAt ep, pkt.data.length ≤ maxPacketSize
  honest : ∀ ep, ∀ pkt ∈ s.loopback.bus.queueAt ep, ∀ f ∈ dataFrames P pkt.data,
    ∃ j delta, (j,delta) ∈ s.nodes.signed ∧ f.payload = (s.nodes.peers j).buildSignedDelta P delta

/-- The deltas that a call collects are counted by 16 bits. -/
def CollectsCountable {ι : Type*} (P : Primitives) (s : OnBus ι) (e : Event ι) : Prop :=
  ∀ d ∈ e.call.collects P (s.nodes.peers e.node), Countable d

theorem collects_answered (P : Primitives) (p : Peer) (reply : Option (Bytes × Endpoint)) (call : NodeCall) :
    (call.answered reply).collects P p = call.collects P p := by
  cases call <;> rfl

theorem addedFor_answered (P : Primitives) (hash : UInt32) (reply : Option (Bytes × Endpoint)) (call : NodeCall) :
    addedFor P hash (call.answered reply) = addedFor P hash call := by
  cases call <;> rfl

/-- The packets of a call carry what it has collected. -/
theorem sends_carry (P : Primitives) (p : Peer) (call : NodeCall) :
    ∀ pkt ∈ call.sends P p, Carries P p (call.collects P p) pkt.1 := by
  have mute : ∀ {sent : List (Bytes × Endpoint)}, AllMute P sent → ∀ pkt ∈ sent, Carries P p (call.collects P p) pkt.1 := by
    intro sent all pkt member
    refine ⟨(all pkt member).2,fun f inside => ?_⟩
    rw [(all pkt member).1] at inside
    cases inside
  cases call with
  | link x call => exact mute (mute_call p.links x call)
  | poll rank x => exact mute (mute_poll p rank x)
  | flush rank clock => exact flush_sound p rank clock
  | _ => exact mute allMute_nil

section
variable {ι : Type*} [DecidableEq ι] {P : Primitives} {places : ι → Endpoint} {s : OnBus ι} {e : Event ι}

theorem secure_step {n : Nodes ι} (secure : Secure P n) (e : Event ι) : Secure P (step P n e) where
  genuine j := (sameNode_step P n e j).2.1 ▸ secure.genuine j
  distinct i j same := secure.distinct i j (by
    rwa [(sameNode_step P n e i).2.1,(sameNode_step P n e j).2.1] at same)

theorem buildSignedDelta_step (P : Primitives) (n : Nodes ι) (e : Event ι) (j : ι) (d : PendingDelta) :
    ((step P n e).peers j).buildSignedDelta P d = (n.peers j).buildSignedDelta P d := by
  obtain ⟨id,keys,_⟩ := sameNode_step P n e j
  simp only [buildSignedDelta,deltaContent,id,keys]

omit [DecidableEq ι] in
theorem clean_of_empty (secure : Secure P s.nodes) (bound : Bound places s.loopback)
    (empty : ∀ ep, s.loopback.bus.queueAt ep = []) : Clean P places s := by
  refine ⟨secure,bound,fun ep pkt member => ?_,fun ep pkt member => ?_⟩
  · rw [empty] at member
    cases member
  · rw [empty] at member
    cases member

theorem clean_step (clean : Clean P places s) (countable : CollectsCountable P s e) : Clean P places (busStep P s e) where
  secure := secure_step clean.secure _
  bound := bound_step clean.bound e
  fits ep pkt member := by
    rcases mem_queue_step clean.bound e member with old | ⟨reply,sent⟩
    · exact clean.fits ep pkt old
    · exact (sends_carry P _ _ _ sent).1
  honest ep pkt member f inside := by
    rcases mem_queue_step clean.bound e member with old | ⟨reply,sent⟩
    · obtain ⟨j,delta,signed,payload⟩ := clean.honest ep pkt old f inside
      exact ⟨j,delta,List.mem_append_left _ signed,payload.trans (buildSignedDelta_step P _ _ j delta).symm⟩
    · obtain ⟨d,collected,framed⟩ := (sends_carry P _ _ _ sent).2 f inside
      rw [collects_answered] at collected
      refine ⟨e.node,d,List.mem_append_right _ (List.mem_map.mpr ⟨d,?_,rfl⟩),?_⟩
      · rw [onBus,collects_answered]
        exact collected
      · rw [deltaFrame_whole (countable d collected) framed]
        exact (buildSignedDelta_step P _ _ e.node d).symm

/-- What a poll is handed by the bus is genuine, where only these deltas wait at the
    place of the node. -/
theorem genuine_of_honest {signed : List (ι × PendingDelta)} (clean : Clean P places s) (e : Event ι)
    (honest : ∀ pkt ∈ s.loopback.bus.queueAt (places e.node), ∀ f ∈ dataFrames P pkt.data,
      ∃ j delta, (j,delta) ∈ signed ∧ f.payload = (s.nodes.peers j).buildSignedDelta P delta) :
    Genuine P { s.nodes with signed := signed } (onBus P s e) := by
  intro rank x data from_ call received f inside j valid
  obtain ⟨i,call'⟩ := e
  cases call' with
  | poll rank' x' =>
    cases call
    obtain ⟨pkt,waited,rfl,_⟩ := reply_mem clean.bound _ received
    have whole : pkt.data.take (min maxPacketSize pkt.data.length) = pkt.data := by
      rw [Nat.min_eq_right (clean.fits _ pkt waited),List.take_length]
    rw [whole] at inside
    obtain ⟨j',delta,listed,payload⟩ := honest pkt waited f inside
    rw [payload,buildSignedDelta,trailer_signed,content_signed,clean.secure.genuine j'] at valid
    obtain rfl := clean.secure.distinct j j' valid
    exact ⟨delta,listed,by rw [payload,buildSignedDelta,content_signed]⟩
  | _ => cases call

theorem genuine_onBus (clean : Clean P places s) (e : Event ι) : Genuine P s.nodes (onBus P s e) :=
  genuine_of_honest clean e (clean.honest (places e.node))

/-- The calls as they go on the bus. -/
def calls (P : Primitives) (s : OnBus ι) (es : List (Event ι)) : List (Event ι) :=
  outputs (busStep P) (fun s e => [onBus P s e]) s es

/-- A run on the bus is a run of the nodes over a network that forges nothing. -/
theorem bus_run (clean : Clean P places s) {es : List (Event ι)}
    (countable : Along (busStep P) (CollectsCountable P) s es) :
    Clean P places (run (busStep P) s es) ∧ (run (busStep P) s es).nodes = run (step P) s.nodes (calls P s es) ∧
      Along (step P) (Genuine P) s.nodes (calls P s es) := by
  refine Refinement.read_run (fun s e clean countable => ?_) clean countable
  exact ⟨clean_step clean countable,rfl,genuine_onBus clean e,trivial⟩

theorem total_calls (P : Primitives) (hash : UInt32) (s : OnBus ι) (es : List (Event ι)) :
    total P hash (calls P s es) = total P hash es := by
  funext j
  induction es generalizing s with
  | nil => rfl
  | cons e es ih =>
    have later := ih (busStep P s e)
    rw [total] at later ⊢
    rw [calls,outputs,List.singleton_append,List.map_cons,List.sum_cons]
    show _ + ((calls P (busStep P s e) es).map _).sum = _
    rw [later,onBus,addedFor_answered]
    rfl

/-! ### Counts arrive -/

/-- What waits at a place that is found empty later was received by the node there. -/
theorem received_of_emptied (apart : Function.Injective places) (clean : Clean P places s) {es : List (Event ι)}
    (countable : Along (busStep P) (CollectsCountable P) s es) {i : ι} {pkt : LoopbackPacket}
    (waiting : pkt ∈ s.loopback.bus.queueAt (places i))
    (emptied : (run (busStep P) s es).loopback.bus.queueAt (places i) = []) :
    ∃ between e rest, es = between ++ e :: rest ∧ e.node = i ∧
      reply P (run (busStep P) s between) e = some (pkt.data,pkt.sender) := by
  induction es generalizing s with
  | nil =>
    rw [run_nil] at emptied
    rw [emptied] at waiting
    cases waiting
  | cons e es ih =>
    rcases kept_step clean.bound e apart waiting with later | ⟨here,gets⟩
    · obtain ⟨between,e',rest,rfl,here,gets⟩ := ih (clean_step clean countable.1) countable.2 later emptied
      exact ⟨e :: between,e',rest,rfl,here,gets⟩
    · refine ⟨[],e,es,rfl,here,?_⟩
      rw [Nat.min_eq_right (clean.fits _ pkt waiting),List.take_length] at gets
      exact gets

/-- The call opens or closes connections. -/
def NodeCall.links : NodeCall → Bool
  | .link _ _ => true
  | _ => false

theorem poll_of_reply {e : Event ι} (noLink : e.call.links = false) {r : Bytes × Endpoint} (gets : reply P s e = some r) :
    ∃ rank x, onBus P s e = ⟨e.node,.poll rank x⟩ ∧ x.reply = some r := by
  obtain ⟨i,call⟩ := e
  cases call with
  | poll rank x => exact ⟨rank,_,rfl,gets⟩
  | link x call => cases noLink
  | _ => cases gets

/-- After its last increment one node has flushed to the place of another, which has
    heard it since then and made no other calls that receive but polls. -/
structure Told (P : Primitives) (places : ι → Endpoint) (hash : UInt32) (s : OnBus ι) (before : List (Event ι))
    (rank : UInt16 → Nat) (clock : Nat → Nat) (after : List (Event ι)) (i j : ι) : Prop where
  sends : Sends P hash ((run (busStep P) s before).nodes.peers j) (places i)
  quiet : ∀ e ∈ after, e.node = j → addedFor P hash e.call = 0
  polls : ∀ e ∈ after, e.node = i → e.call.links = false
  hears : Everywhere (busStep P) (fun s => Hears s.nodes i j (places j))
    (run (busStep P) s (before ++ [⟨j,.flush rank clock⟩])) after

theorem calls_append (P : Primitives) (s : OnBus ι) (es fs : List (Event ι)) :
    calls P s (es ++ fs) = calls P s es ++ calls P (run (busStep P) s es) fs := outputs_append _ _

section
variable [Fintype ι] {ids : ι → UInt16} {hash : UInt32} (distinct : Function.Injective ids)
  (apart : ∀ j, BytesDiffer (ids j)) (separate : Function.Injective places)
include distinct apart separate

/-- The node that has emptied its queue counts all of the one that has flushed to it. -/
theorem total_le_of_told (fresh : Fresh ids hash s.nodes) (clean : Clean P places s) {es before after : List (Event ι)}
    {rank : UInt16 → Nat} {clock : Nat → Nat} {i j : ι} (split : es = before ++ ⟨j,.flush rank clock⟩ :: after)
    (countable : Along (busStep P) (CollectsCountable P) s es) (small : ∑ k, total P hash es k < 2^63)
    (told : Told P places hash s before rank clock after i j)
    (emptied : (run (busStep P) s es).loopback.bus.queueAt (places i) = []) {c : GCounter}
    (holds : HoldsCounter hash ((run (busStep P) s es).nodes.peers i) c) : total P hash es j ≤ c.countOf (ids j) := by
  subst split
  -- the flush puts a packet with the total into the queue
  obtain ⟨countableBefore,countableFlush,countableAfter⟩ := (along_append _).mp countable
  obtain ⟨cleanBefore,nodesBefore,genuineBefore⟩ := bus_run clean countableBefore
  have smallBefore : ∑ k, total P hash (calls P s before) k < 2^63 := by
    rw [total_calls]
    exact small_part small
  obtain ⟨f,b,⟨pkt,sent,inside⟩,carried,called⟩ := flush_sends_total distinct apart fresh genuineBefore smallBefore
    (nodesBefore ▸ told.sends) rank clock
  rw [← nodesBefore] at sent called
  rw [total_calls] at carried
  have waiting := flushed_waits cleanBefore.bound ⟨j,.flush rank clock⟩ rfl sent
  have emptiedAfter := emptied
  rw [run_append,run_cons] at emptiedAfter
  -- where the node receives it
  obtain ⟨between,e,rest,rfl,rfl,gets⟩ := received_of_emptied separate (clean_step cleanBefore countableFlush)
    countableAfter waiting emptiedAfter
  obtain ⟨rank',x,polled,arrived⟩ := poll_of_reply
    (told.polls e (List.mem_append_right _ List.mem_cons_self) rfl) gets
  have last : total P hash (before ++ ⟨j,.flush rank clock⟩ :: (between ++ e :: rest)) j = total P hash before j := by
    refine total_append_quiet fun e' member here => ?_
    rcases List.mem_cons.mp member with rfl | later
    · rfl
    · exact told.quiet e' later here
  rw [last,← carried]
  let upTo := before ++ ⟨j,.flush rank clock⟩ :: between
  have whole : before ++ ⟨j,.flush rank clock⟩ :: (between ++ e :: rest) = upTo ++ e :: rest := by simp [upTo]
  have reached : run (busStep P) s upTo =
      run (busStep P) (busStep P (run (busStep P) s before) ⟨j,.flush rank clock⟩) between :=
    run_append _
  rw [whole] at countable small holds
  obtain ⟨_,nodes,genuine⟩ := bus_run clean countable
  obtain ⟨_,nodesUpTo,_⟩ := bus_run clean ((along_append _).mp countable).1
  have passed : calls P s (upTo ++ e :: rest) = calls P s upTo ++ ⟨e.node,.poll rank' x⟩ ::
      calls P (busStep P (run (busStep P) s upTo) e) rest := by
    rw [calls_append,← polled,reached]
    rfl
  have hears : Hears (run (busStep P) s upTo).nodes e.node j (places j) := by
    have all := told.hears.append.last
    rwa [run_append,run_cons,run_nil,← reached] at all
  have same : SameNode ((run (busStep P) s before).nodes.peers j) ((run (busStep P) s upTo).nodes.peers j) := by
    rw [nodesUpTo,nodesBefore,calls_append,run_append]
    exact sameNode_steps P _ _ j
  have key := hears.key
  rw [same.1,same.2.1] at key
  rw [← total_calls P hash s,passed] at small
  rw [nodes,passed] at holds
  rw [passed] at genuine
  rw [nodesUpTo] at hears key
  exact count_of_polled distinct apart fresh genuine small hears arrived inside (called _ key) holds (ids j)

/-- Nodes over a loopback bus never count too much, and a node that has emptied its
    queue shows the exact total once every node that has added has flushed to it. -/
theorem loopback_converges (fresh : Fresh ids hash s.nodes) (secure : Secure P s.nodes) (bound : Bound places s.loopback)
    (empty : ∀ ep, s.loopback.bus.queueAt ep = []) {es : List (Event ι)}
    (countable : Along (busStep P) (CollectsCountable P) s es) (small : ∑ k, total P hash es k < 2^63) (i : ι) :
    ∃ c, HoldsCounter hash ((run (busStep P) s es).nodes.peers i) c ∧ CountsUpTo ids (total P hash es) i c ∧
      ((run (busStep P) s es).loopback.bus.queueAt (places i) = [] →
        (∀ j, j ≠ i → total P hash es j ≠ 0 → ∃ before rank clock after,
          es = before ++ ⟨j,.flush rank clock⟩ :: after ∧ Told P places hash s before rank clock after i j) →
        c.value.toNat = ∑ j, total P hash es j) := by
  have clean : Clean P places s := clean_of_empty secure bound empty
  obtain ⟨_,nodes,genuine⟩ := bus_run clean countable
  obtain ⟨t,follows,_,counted⟩ := counted_run distinct apart fresh genuine (by rwa [total_calls])
  rw [← nodes] at follows
  rw [total_calls] at counted
  have counts := countsUpTo_of_counted distinct small counted i
  refine ⟨t.node i,follows.node i,counts,fun emptied all => ?_⟩
  rw [counts.value]
  refine Finset.sum_congr rfl (fun j _ => Nat.le_antisymm (counts.others j) ?_)
  by_cases own : j = i
  · rw [own,counts.own]
  · by_cases none : total P hash es j = 0
    · rw [none]
      exact Nat.zero_le _
    · obtain ⟨before,rank,clock,after,split,told⟩ := all j own none
      exact total_le_of_told distinct apart separate fresh clean split countable small told emptied (follows.node i)

end
end

/-! ### Two nodes on a bus -/

instance {ι : Type*} (P : Primitives) (s : OnBus ι) (e : Event ι) : Decidable (CollectsCountable P s e) :=
  inferInstanceAs (Decidable (∀ d ∈ e.call.collects P (s.nodes.peers e.node),
    StateDeltaFrame.minWireSize + d.data.length < 2^16))

def pairPlaces (second : Bool) : Endpoint := if second then ⟨[],2⟩ else ⟨[],1⟩

def busPair : OnBus Bool := ⟨linkedPair .gCounter,⟨∅,fun i => ⟨pairPlaces i,true⟩⟩⟩

/-- Node 2 polls. -/
def polls : Event Bool := ⟨true,.poll UInt16.toNat { clock := fun _ => 0 }⟩

theorem linkedPair_secure (type : CrdtType) : Secure plain (linkedPair type) where
  genuine j := by cases j <;> exact plain_genuine _
  distinct i j same := by
    have keys : ∀ i, ((linkedPair type).peers i).keys = plainKeys (if i then 2 else 1) := fun i => rfl
    rw [keys,keys] at same
    cases i <;> cases j <;> first | rfl | exact absurd same (by decide)

theorem busPair_told :
    Told plain pairPlaces sharedHash busPair (counting.take 1) UInt16.toNat (fun _ => 0) [polls] true false where
  sends := counting_sends
  quiet e member := by
    rw [List.mem_singleton.mp member]
    intro other
    cases other
  polls e member := by
    rw [List.mem_singleton.mp member]
    exact fun _ => rfl
  hears := ⟨hears_of_held (by decide +kernel) (by decide +kernel) (by decide +kernel),
    hears_of_held (by decide +kernel) (by decide +kernel) (by decide +kernel)⟩

theorem loopback_converges_two :
    ∃ c, HoldsCounter sharedHash ((run (busStep plain) busPair (counting ++ [polls])).nodes.peers true) c ∧
      c.value.toNat = 5 := by
  have separate : Function.Injective pairPlaces := by decide
  have bound : Bound pairPlaces busPair.loopback := rfl
  obtain ⟨c,holds,_,exact⟩ := loopback_converges (by decide) (by decide) separate linkedPair_fresh
    (linkedPair_secure .gCounter) bound (fun ep => LoopbackBus.queueAt_empty ep)
    (by decide +kernel : Along (busStep plain) (CollectsCountable plain) busPair (counting ++ [polls]))
    (by decide +kernel) true
  refine ⟨c,holds,(exact (by decide +kernel) fun j other _ => ?_).trans (by decide +kernel)⟩
  cases j with
  | false => exact ⟨_,_,_,_,rfl,busPair_told⟩
  | true => exact absurd rfl other

end NodeNetwork
end Rom
