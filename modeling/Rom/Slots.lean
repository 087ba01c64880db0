import Rom.Poll

/-!
The slots of the connection table. `connect_to`, `accept_node` and `poll` put a slot in
before they know whether the other side answers. Each exit without a connection takes
it out again, whatever was received, so the table is as before or has one more
established connection (`no_half_open`).

The calls for a single other node keep their slot, and with it the state that the last
attempt left. A connection is initiated from the idle state only, to which nothing
returns, so the first call of `connect` or `connect_start` is the last that can succeed
(`connect_succeeds_iff`).
-/
namespace Rom.Slots
open Std Rom.Runs Handshake

abbrev Table := ExtTreeMap UInt16 ManagedConnection

theorem insert_twice (m : Table) (id : UInt16) (a b : ManagedConnection) : (m.insert id a).insert id b = m.insert id b := by
  ext1 key
  simp only [ExtTreeMap.getElem?_insert]
  split
  · rfl
  · rfl

theorem erase_inserted {m : Table} {id : UInt16} (absent : m[id]? = none) (a : ManagedConnection) :
    (m.insert id a).erase id = m := by
  ext1 key
  simp only [ExtTreeMap.getElem?_erase,ExtTreeMap.getElem?_insert,LawfulEqCmp.compare_eq_iff_eq]
  split
  · next same => rw [← same,absent]
  · rfl

/-- The table has one connection more, a new one that is established. -/
def Extends (before after : Table) (id : UInt16) : Prop :=
  before[id]? = none ∧ ∃ mc, mc.remoteNodeId = id ∧ mc.conn.state = .connected ∧ after = before.insert id mc

/-! ### One slot -/

/-- The table is another one with a slot for the node, which is in some state. -/
def Slot (before : Table) (id : UInt16) (state : ConnectionState) (l : Links) : Prop :=
  ∃ mc, mc.remoteNodeId = id ∧ mc.conn.state = state ∧ l.connMgr.conns = before.insert id mc

section
variable {P : Primitives} {before : Table} {id : UInt16} {state : ConnectionState} {l : Links}

theorem conns_nextConnId (m : ConnectionManager) : m.nextConnId.2.conns = m.conns := by
  rw [ConnectionManager.nextConnId]
  split
  · rfl
  · rfl

/-- The slot's connection is replaced. -/
theorem slot_put {mc : ManagedConnection} (held : l.connMgr.conns = before.insert id mc) {m : ConnectionManager}
    (same : m.conns = l.connMgr.conns) {other : ManagedConnection} (named : other.remoteNodeId = id)
    (now : other.conn.state = state) : Slot before id state { l with connMgr := m.put id other } :=
  ⟨other,named,now,by rw [ConnectionManager.put,same,held,insert_twice]⟩

theorem get_of_held {mc : ManagedConnection} (held : l.connMgr.conns = before.insert id mc) :
    l.connMgr.get id = some mc := by
  rw [ConnectionManager.get,held,ExtTreeMap.getElem?_insert_self]

theorem dial_slot (slot : Slot before id .idle l) (remote : Endpoint) (x : Exchange) :
    Slot before id .connecting (l.dial P id remote x).links := by
  obtain ⟨mc,named,idle,held⟩ := slot
  rw [Links.dial,get_of_held held]
  simp only [Connection.initiate,idle,ne_eq,not_true_eq_false,if_false,Bool.not_true,Bool.false_eq_true]
  refine slot_put held (conns_nextConnId _) ?_ ?_
  · exact named
  · rfl

theorem processPacket_accepted {conn : Connection} {data : Bytes} (connecting : conn.state = .connecting)
    (received : (processPacket P conn data).1.result = .acceptReceived) :
    (processPacket P conn data).2.state = .connected := by
  obtain ⟨n,effect⟩ := processPacket_effect P conn data
  rw [effect,HandshakeEvent.effect,received]
  simp [Connection.onAccept,connecting]

/-- Waiting for an answer touches the slot only, and success means that it is
    connected. -/
theorem awaitAccept_slot (slot : Slot before id .connecting l) (x : Exchange) :
    ∃ state, Slot before id state (l.awaitAccept P id x).links ∧
      ((l.awaitAccept P id x).ok = true → state = .connected) := by
  obtain ⟨mc,named,connecting,held⟩ := slot
  rw [Links.awaitAccept,get_of_held held]
  cases x.reply with
  | none => exact ⟨.connecting,⟨mc,named,connecting,held⟩,fun ok => absurd ok Bool.false_ne_true⟩
  | some received =>
    obtain ⟨data,from_⟩ := received
    refine ⟨(processPacket P mc.conn data).2.state,slot_put held rfl ?_ rfl,fun ok => ?_⟩
    · exact named
    · exact processPacket_accepted connecting (beq_iff_eq.mp ok)

theorem answer_slot (slot : Slot before id .idle l) (x : Exchange) :
    ∃ state, Slot before id state (l.answer P id x).links ∧ ((l.answer P id x).ok = true → state = .connected) := by
  obtain ⟨mc,named,idle,held⟩ := slot
  rw [Links.answer,get_of_held held]
  cases x.reply with
  | none => exact ⟨.idle,⟨mc,named,idle,held⟩,fun ok => absurd ok Bool.false_ne_true⟩
  | some received =>
    obtain ⟨data,from_⟩ := received
    dsimp only
    split
    · refine ⟨(processPacket P mc.conn data).2.state,slot_put held rfl ?_ rfl,fun ok => ?_⟩
      · exact named
      · exact absurd ok Bool.false_ne_true
    · refine ⟨_,slot_put held (conns_nextConnId _) ?_ rfl,fun ok => beq_iff_eq.mp ok⟩
      exact named

/-- What a call for a new node leaves in the table. -/
def Settles (before : Table) (id : UInt16) (r : LinkResult) : Prop :=
  (r.ok = false → r.links.connMgr.conns = before) ∧ (r.ok = true → Extends before r.links.connMgr.conns id)

/-- The table with a new slot. -/
def opened (m : ConnectionManager) (id : UInt16) (now : Nat) : ConnectionManager :=
  { m with conns := m.conns.insert id { remoteNodeId := id, conn := .new now } }

theorem add_cases (m : ConnectionManager) (id : UInt16) (now : Nat) :
    (∃ mc, m.conns[id]? = some mc ∧ m.add id now = (m,false)) ∨
      m.conns[id]? = none ∧ m.add id now = (opened m id now,true) := by
  rw [ConnectionManager.add,ExtTreeMap.contains_eq_isSome_getElem?]
  cases m.conns[id]? with
  | none => exact .inr ⟨rfl,rfl⟩
  | some mc => exact .inl ⟨mc,rfl,rfl⟩

/-- The slot for a new node is taken out again unless the attempt succeeds. -/
theorem tryNew_settles {attempt : Links → LinkResult} (x : Exchange)
    (touches : ∀ fresh, Slot l.connMgr.conns id .idle fresh → ∃ state,
      Slot l.connMgr.conns id state (attempt fresh).links ∧ ((attempt fresh).ok = true → state = .connected)) :
    Settles l.connMgr.conns id (l.tryNew id x attempt) := by
  rcases add_cases l.connMgr id (x.clock 0) with ⟨_,_,present⟩ | ⟨absent,added⟩
  · rw [Links.tryNew,present]
    exact ⟨fun _ => rfl,fun ok => absurd ok Bool.false_ne_true⟩
  · obtain ⟨state,⟨mc,named,now,held⟩,success⟩ :=
      touches { l with connMgr := opened l.connMgr id (x.clock 0) } ⟨_,rfl,rfl,rfl⟩
    simp only [Links.tryNew,added,Bool.not_true,Bool.false_eq_true,if_false]
    generalize attempt { l with connMgr := opened l.connMgr id (x.clock 0) } = r at held success ⊢
    cases ok : r.ok with
    | false =>
      refine ⟨fun _ => ?_,fun good => absurd good Bool.false_ne_true⟩
      show r.links.connMgr.conns.erase id = _
      rw [held,erase_inserted absent]
    | true =>
      refine ⟨fun bad => absurd (bad.symm.trans ok) Bool.false_ne_true,fun _ => ?_⟩
      exact ⟨absent,mc,named,now.trans (success ok),held⟩

theorem connectTo_settles (P : Primitives) (l : Links) (id : UInt16) (remote : Endpoint) (x : Exchange) :
    Settles l.connMgr.conns id (l.connectTo P id remote x) := by
  refine tryNew_settles x (fun opened slot => ?_)
  have dialed := dial_slot (P := P) slot remote x
  dsimp only
  split
  · next failed =>
    refine ⟨.connecting,dialed,fun ok => ?_⟩
    rw [ok] at failed
    cases failed
  · exact awaitAccept_slot dialed x

theorem acceptNode_settles (P : Primitives) (l : Links) (id : UInt16) (x : Exchange) :
    Settles l.connMgr.conns id (l.acceptNode P id x) :=
  tryNew_settles x (fun _ slot => answer_slot slot x)

end

/-! ### Connections that `poll` opens -/

/-- The poll takes a packet of the handshake that comes from no known address. -/
def FromElsewhere (P : Primitives) (p : Peer) (rank : UInt16 → Nat) (x : Exchange) : Prop :=
  p.links.connMgr.hasConnections = true ∧ ∃ data from_ d, x.reply = some (data,from_) ∧
    PacketDecoder.ofPacket data = some d ∧ d.verifyChecksum P = true ∧ d.header.packetType = .handshake ∧
    p.links.connMgr.atEndpoint rank from_ = none

theorem processPacket_asked {P : Primitives} {conn : Connection} {data : Bytes}
    (received : (processPacket P conn data).1.result = .connectReceived) :
    (processPacket P conn data).2.state = .accepting := by
  obtain ⟨n,effect⟩ := processPacket_effect P conn data
  rw [effect,HandshakeEvent.effect,received]
  rfl

theorem autoAccept_table (P : Primitives) (p : Peer) (data : Bytes) (from_ : Endpoint) (x : Exchange) :
    (p.autoAccept P data from_ x).peer.links.connMgr.conns = p.links.connMgr.conns ∨
      ∃ id, Extends p.links.connMgr.conns (p.autoAccept P data from_ x).peer.links.connMgr.conns id := by
  rcases add_cases p.links.connMgr p.nextAutoNodeId (x.clock 0) with ⟨_,_,present⟩ | ⟨absent,added⟩
  · rw [Peer.autoAccept,present]
    exact .inl rfl
  · simp only [Peer.autoAccept,added,Bool.not_true,Bool.false_eq_true,if_false]
    split
    · next asked =>
      refine .inr ⟨p.nextAutoNodeId,absent,?_⟩
      have accepting := processPacket_asked asked
      have table : (opened p.links.connMgr p.nextAutoNodeId (x.clock 0)).nextConnId.2.conns =
          (opened p.links.connMgr p.nextAutoNodeId (x.clock 0)).conns := conns_nextConnId _
      simp only [Peer.putLink,ConnectionManager.put,table]
      refine ⟨_,rfl,?_,insert_twice _ _ _ _⟩
      show (Connection.accept _ _ _ _ _).1.state = .connected
      simp [Connection.accept,accepting]
    · exact .inl (erase_inserted absent _)

theorem poll_elsewhere {P : Primitives} {p : Peer} {rank : UInt16 → Nat} {x : Exchange}
    (elsewhere : FromElsewhere P p rank x) :
    ∃ data from_, p.poll P rank x = p.autoAccept P data from_ x := by
  obtain ⟨connected,data,from_,d,arrived,accepted,checked,kind,unknown⟩ := elsewhere
  refine ⟨data,from_,?_⟩
  simp [Peer.poll,connected,arrived,accepted,checked,kind,unknown]

/-- No call leaves a slot behind that is not connected. -/
theorem no_half_open (P : Primitives) :
    (∀ (l : Links) (id : UInt16) (remote : Endpoint) (x : Exchange),
      Settles l.connMgr.conns id (l.connectTo P id remote x)) ∧
      (∀ (l : Links) (id : UInt16) (x : Exchange), Settles l.connMgr.conns id (l.acceptNode P id x)) ∧
      ∀ (p : Peer) (rank : UInt16 → Nat) (x : Exchange), FromElsewhere P p rank x →
        (p.poll P rank x).peer.links.connMgr.conns = p.links.connMgr.conns ∨
          ∃ id, Extends p.links.connMgr.conns (p.poll P rank x).peer.links.connMgr.conns id := by
  refine ⟨connectTo_settles P,acceptNode_settles P,?_⟩
  intro p rank x elsewhere
  obtain ⟨data,from_,polled⟩ := poll_elsewhere elsewhere
  rw [polled]
  exact autoAccept_table P p data from_ x

/-- The packet that opens a connection, from port 3. -/
def knock : Exchange := { clock := fun _ => 0, reply := some ((buildConnectPacket plain (.new 0) 0).1,⟨[],3⟩) }

/-- A node that is connected to port 1 only. -/
theorem knock_elsewhere : FromElsewhere plain Pings.serverNode (fun id => id.toNat) knock := by
  obtain ⟨d,accepted,checked,kind,_⟩ := ofPacket_buildPacket plain (.new 0) .handshake 0 0 .connect
    (ConnectFrame.mk connectMagic protocolVersion (Connection.new 0).config.maxFrameSize).encode (by decide : 7 ≤ 1024)
  exact ⟨by decide +kernel,_,_,d,rfl,accepted,checked,kind,by decide +kernel⟩

theorem no_half_open_knock :
    (Pings.serverNode.poll plain (fun id => id.toNat) knock).peer.links.connMgr.conns =
      Pings.serverNode.links.connMgr.conns ∨
      ∃ id, Extends Pings.serverNode.links.connMgr.conns
        (Pings.serverNode.poll plain (fun id => id.toNat) knock).peer.links.connMgr.conns id :=
  (no_half_open plain).2.2 _ _ _ knock_elsewhere

/-! ### The calls for one other node -/

/-- A call of the interface for one other node. -/
inductive Call where
  | connect (remote : Endpoint)
  | connectStart (remote : Endpoint)
  | connectPoll
  | disconnect (rank : UInt16 → Nat) (reason : CloseReason)

/-- The call opens a connection. -/
def Call.opens : Call → Bool
  | .connect _ => true
  | .connectStart _ => true
  | _ => false

def Call.link : Call → LinkCall
  | .connect remote => .connect remote
  | .connectStart remote => .connectStart remote
  | .connectPoll => .connectPoll
  | .disconnect rank reason => .disconnect rank reason

/-- A call, and what the transport and the clock do during it. -/
structure Event where
  call : Call
  exchange : Exchange

def step (P : Primitives) (l : Links) (e : Event) : Links := (l.call P e.exchange e.call.link).links

/-- An exchange in which the packet is sent and answered by some node with an ACCEPT. -/
def accepted (P : Primitives) (clock : Nat → Nat) (sender : Connection) (now later : Nat) (from_ : Endpoint) : Exchange :=
  { clock := clock, sends := true, reply := some ((buildAcceptPacket P sender now later).1,from_) }

/-- The call succeeds and the connection is established. -/
def Succeeds (r : LinkResult) : Prop := r.ok = true ∧ ∃ mc, r.links.connMgr.get 0 = some mc ∧ mc.conn.state = .connected

/-- The slot is there, and its connection was initiated. -/
def Used (l : Links) : Prop := ∃ mc, l.connMgr.get 0 = some mc ∧ mc.conn.state ≠ .idle

section
variable {P : Primitives} {l : Links}

theorem get_put (m : ConnectionManager) (id other : UInt16) (mc : ManagedConnection) :
    (m.put id mc).get other = if id = other then some mc else m.get other := by
  simp [ConnectionManager.put,ConnectionManager.get,ExtTreeMap.getElem?_insert]

theorem get_nextConnId (m : ConnectionManager) (id : UInt16) : m.nextConnId.2.get id = m.get id := by
  rw [ConnectionManager.get,conns_nextConnId,ConnectionManager.get]

/-- No packet makes a connection idle. -/
theorem processPacket_used {conn : Connection} (used : conn.state ≠ .idle) (data : Bytes) :
    (processPacket P conn data).2.state ≠ .idle := by
  obtain ⟨n,effect⟩ := processPacket_effect P conn data
  rw [effect,HandshakeEvent.effect]
  split
  · exact ConnectionState.noConfusion
  · rw [Connection.onAccept]
    split
    · exact used
    · exact ConnectionState.noConfusion
  · exact ConnectionState.noConfusion
  · exact used

theorem used_put {mc : ManagedConnection} (m : ConnectionManager) (hs : HandshakeState) (used : mc.conn.state ≠ .idle) :
    Used ⟨m.put 0 mc,hs⟩ := by
  refine ⟨mc,?_,used⟩
  show (m.put 0 mc).get 0 = some mc
  rw [get_put,if_pos rfl]

theorem used_congr {m : Links} (used : Used l) (same : m.connMgr.get 0 = l.connMgr.get 0) : Used m := by
  obtain ⟨mc,found,state⟩ := used
  exact ⟨mc,same.trans found,state⟩

theorem used_awaitAccept (used : Used l) (x : Exchange) : Used (l.awaitAccept P 0 x).links := by
  obtain ⟨mc,found,state⟩ := used
  rw [Links.awaitAccept,found]
  cases x.reply with
  | none => exact ⟨mc,found,state⟩
  | some received => exact used_put _ _ (processPacket_used state received.1)

/-- Dialling needs an idle connection and leaves one that is not. -/
theorem used_dial {mc : ManagedConnection} (found : l.connMgr.get 0 = some mc) (remote : Endpoint) (x : Exchange) :
    Used (l.dial P 0 remote x).links := by
  rw [Links.dial,found]
  by_cases idle : mc.conn.state = .idle
  · simp only [Connection.initiate,idle,ne_eq,not_true_eq_false,if_false,Bool.not_true,Bool.false_eq_true]
    exact used_put _ _ ConnectionState.noConfusion
  · simp only [Connection.initiate,ne_eq,idle,not_false_eq_true,if_true,Bool.not_false]
    exact used_congr ⟨mc,found,idle⟩ (get_nextConnId _ _)

/-- The slot is there after it is opened, and new if it was not. -/
theorem openSlot_cases (l : Links) (now : Nat) :
    (∃ mc, l.connMgr.get 0 = some mc ∧ l.openSlot now = l) ∨
      l.connMgr.get 0 = none ∧ (l.openSlot now).connMgr.get 0 = some { remoteNodeId := 0, conn := .new now } := by
  rw [Links.openSlot]
  rcases add_cases l.connMgr 0 now with ⟨mc,found,same⟩ | ⟨absent,added⟩
  · rw [same]
    exact .inl ⟨mc,found,rfl⟩
  · rw [added]
    exact .inr ⟨absent,ExtTreeMap.getElem?_insert_self⟩

theorem used_dialed (l : Links) (remote : Endpoint) (x : Exchange) :
    Used ((l.openSlot (x.clock 0)).dial P 0 remote x).links := by
  rcases openSlot_cases l (x.clock 0) with ⟨mc,found,same⟩ | ⟨_,found⟩
  · rw [same]
    exact used_dial found remote x
  · exact used_dial found remote x

theorem used_connect (l : Links) (remote : Endpoint) (x : Exchange) : Used (l.connect P remote x).links := by
  rw [Links.connect]
  dsimp only
  split
  · exact used_dialed l remote x
  · exact used_awaitAccept (used_dialed l remote x) x

theorem used_connectStart (l : Links) (remote : Endpoint) (x : Exchange) : Used (l.connectStart P remote x).links := by
  rw [Links.connectStart]
  dsimp only
  split
  · exact used_dialed l remote x
  · exact used_congr (used_dialed l remote x) rfl

theorem used_connectPoll (used : Used l) (x : Exchange) : Used (l.connectPoll P x).links := by
  rw [Links.connectPoll,Links.pollHandshake]
  split
  · exact used
  · split
    · exact used
    · split
      · exact used_congr used rfl
      · dsimp only
        split
        · exact used_awaitAccept used x
        · exact used_congr (used_awaitAccept used x) rfl

theorem fresh_connectPoll (fresh : l.connMgr.get 0 = none) (x : Exchange) :
    (l.connectPoll P x).links.connMgr.get 0 = none := by
  rw [Links.connectPoll,Links.pollHandshake,fresh]
  split
  · exact fresh
  · exact fresh

/-- Closing a connection leaves the slot as it was, or closing. -/
theorem closeLink_slot (l : Links) (id : UInt16) (reason : CloseReason) (x : Exchange) :
    (l.closeLink P id reason x).links.connMgr.get 0 = l.connMgr.get 0 ∨
      (l.connMgr.get 0).isSome = true ∧ Used (l.closeLink P id reason x).links := by
  rw [Links.closeLink]
  cases found : l.connMgr.get id with
  | none => exact .inl rfl
  | some mc =>
    dsimp only
    split
    · exact .inl rfl
    · next connected =>
      rw [not_not] at connected
      by_cases here : id = 0
      · subst here
        refine .inr ⟨by rw [found]; rfl,used_put _ _ ?_⟩
        show (Connection.close _ _).1.state ≠ _
        rw [Connection.close,if_neg (not_not.mpr connected)]
        exact ConnectionState.noConfusion
      · refine .inl ?_
        show (ConnectionManager.put _ _ _).get 0 = _
        rw [get_put,if_neg here]

theorem disconnect_slot (l : Links) (rank : UInt16 → Nat) (reason : CloseReason) (x : Exchange) :
    (l.disconnect P rank reason x).links.connMgr.get 0 = l.connMgr.get 0 ∨
      (l.connMgr.get 0).isSome = true ∧ Used (l.disconnect P rank reason x).links := by
  rw [Links.disconnect]
  cases l.connMgr.primary rank with
  | none => exact .inl rfl
  | some e => exact closeLink_slot l e.1 reason x

theorem used_step (e : Event) (used : Used l) : Used (step P l e) := by
  obtain ⟨call,x⟩ := e
  cases call with
  | connect remote => exact used_connect l remote x
  | connectStart remote => exact used_connectStart l remote x
  | connectPoll => exact used_connectPoll used x
  | disconnect rank reason =>
    rcases disconnect_slot l rank reason x with same | ⟨_,closing⟩
    · exact used_congr used same
    · exact closing

theorem used_of_opens {e : Event} (opens : e.call.opens = true) (l : Links) : Used (step P l e) := by
  obtain ⟨call,x⟩ := e
  cases call with
  | connect remote => exact used_connect l remote x
  | connectStart remote => exact used_connectStart l remote x
  | connectPoll => cases opens
  | disconnect rank reason => cases opens

theorem fresh_step {e : Event} (other : e.call.opens = false) (fresh : l.connMgr.get 0 = none) :
    (step P l e).connMgr.get 0 = none := by
  obtain ⟨call,x⟩ := e
  cases call with
  | connect remote => cases other
  | connectStart remote => cases other
  | connectPoll => exact fresh_connectPoll fresh x
  | disconnect rank reason =>
    rcases disconnect_slot l rank reason x with same | ⟨there,_⟩
    · exact same.trans fresh
    · rw [fresh] at there
      cases there

theorem fresh_run {events : List Event} (none_opens : ∀ e ∈ events, e.call.opens = false) (fresh : l.connMgr.get 0 = none) :
    (run (step P) l events).connMgr.get 0 = none := by
  induction events generalizing l with
  | nil => exact fresh
  | cons e events ih =>
    obtain ⟨other,rest⟩ := List.forall_mem_cons.mp none_opens
    exact ih rest (fresh_step other fresh)

/-- Once a call has opened the slot, it stays used. -/
theorem used_run {events : List Event} {e : Event} (member : e ∈ events) (opens : e.call.opens = true) (l : Links) :
    Used (run (step P) l events) := by
  obtain ⟨before,after,rfl⟩ := List.append_of_mem member
  rw [run_append,run_cons]
  exact run_invariant (fun _ e used => used_step e used) (used_of_opens opens _)

/-- A used slot is not connected again. -/
theorem connect_used (used : Used l) (remote : Endpoint) (x : Exchange) : (l.connect P remote x).ok = false := by
  obtain ⟨mc,found,state⟩ := used
  have same : l.openSlot (x.clock 0) = l := by
    rcases openSlot_cases l (x.clock 0) with ⟨_,_,same⟩ | ⟨absent,_⟩
    · exact same
    · rw [found] at absent
      cases absent
  have refused : (l.dial P 0 remote x).ok = false := by
    rw [Links.dial,found]
    simp [Connection.initiate,state]
  rw [Links.connect,same]
  simp [refused]

theorem dial_ok {before : Table} (slot : Slot before 0 .idle l) (remote : Endpoint) (x : Exchange) :
    (l.dial P 0 remote x).ok = x.sends := by
  obtain ⟨mc,_,idle,held⟩ := slot
  rw [Links.dial,get_of_held held]
  simp [Connection.initiate,idle]

theorem awaitAccept_ok {before : Table} {state : ConnectionState} (slot : Slot before 0 state l) (clock : Nat → Nat)
    (sender : Connection) (now later : Nat) (from_ : Endpoint) :
    (l.awaitAccept P 0 (accepted P clock sender now later from_)).ok = true := by
  obtain ⟨mc,_,_,held⟩ := slot
  obtain ⟨n,received⟩ := processPacket_accept P mc.conn sender now later
  rw [Links.awaitAccept,get_of_held held]
  simp [accepted,received]

/-- A new slot whose packet is sent and answered is connected. -/
theorem succeeds_of_answered {before : Table} {x : Exchange} (slot : Slot before 0 .idle (l.openSlot (x.clock 0)))
    (remote : Endpoint) (sends : x.sends = true)
    (answered : ∀ dialed, Slot before 0 .connecting dialed → (dialed.awaitAccept P 0 x).ok = true) :
    Succeeds (l.connect P remote x) := by
  have dialed := dial_slot (P := P) slot remote x
  have sent : ((l.openSlot (x.clock 0)).dial P 0 remote x).ok = true := (dial_ok slot remote x).trans sends
  obtain ⟨state,⟨mc,_,ends,held⟩,connected⟩ := awaitAccept_slot (P := P) dialed x
  rw [Links.connect]
  simp only [sent,Bool.not_true,Bool.false_eq_true,if_false]
  exact ⟨answered _ dialed,mc,get_of_held held,ends.trans (connected (answered _ dialed))⟩

theorem connect_fresh (fresh : l.connMgr.get 0 = none) (remote : Endpoint) (clock : Nat → Nat) (sender : Connection)
    (now later : Nat) (from_ : Endpoint) : Succeeds (l.connect P remote (accepted P clock sender now later from_)) := by
  have slot : Slot l.connMgr.conns 0 .idle (l.openSlot (clock 0)) := by
    rcases add_cases l.connMgr 0 (clock 0) with ⟨mc,found,_⟩ | ⟨_,added⟩
    · rw [ConnectionManager.get,found] at fresh
      cases fresh
    · rw [Links.openSlot,added]
      exact ⟨_,rfl,rfl,rfl⟩
  exact succeeds_of_answered slot remote rfl (fun _ dialed => awaitAccept_ok dialed clock sender now later from_)

end

/-- A connection that is answered is established exactly when no call before it opened
    one. -/
theorem connect_succeeds_iff (P : Primitives) (events : List Event) (remote : Endpoint) (clock : Nat → Nat)
    (sender : Connection) (now later : Nat) (from_ : Endpoint) :
    Succeeds ((run (step P) {} events).connect P remote (accepted P clock sender now later from_)) ↔
      ∀ e ∈ events, e.call.opens = false := by
  constructor
  · rintro ⟨ok,_⟩ e member
    by_contra opens
    rw [Bool.not_eq_false] at opens
    rw [connect_used (used_run member opens {})] at ok
    cases ok
  · intro none_opens
    exact connect_fresh (fresh_run none_opens rfl) remote clock sender now later from_

/-- A connection that was not answered, and one that was established and closed, are
    not established by another attempt. -/
theorem not_retried :
    let remote : Endpoint := ⟨[],2⟩
    let answered := accepted plain (fun _ => 0) (.new 0) 0 0 remote
    let silent : Exchange := { clock := fun _ => 0 }
    (({} : Links).connect plain remote silent).ok = false ∧
      ((run (step plain) {} [⟨.connect remote,silent⟩]).connect plain remote answered).ok = false ∧
      (({} : Links).connect plain remote answered).ok = true ∧
      ((run (step plain) {} [⟨.connect remote,answered⟩,⟨.disconnect (fun id => id.toNat) .normal,silent⟩]).connect plain
        remote answered).ok = false := by
  decide +kernel

end Rom.Slots
