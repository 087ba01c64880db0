import Rom.Peer

/-!
How a node takes a packet from its transport (`poll` of `peer.cpp`). The packet
belongs to the established connection with its sender's address. A packet of the
handshake from elsewhere may open a new connection; any other is taken for the
first connection of the table. A ping should be answered with a pong, but `poll`
looks for pings among the packets of the handshake only, while they are built as
control packets (`ping_answered_iff`, `ping_unanswered`).
-/
namespace Rom
open Std Handshake

/-- The established connection with an address; the last one, if there are more. -/
def ConnectionManager.atEndpoint (m : ConnectionManager) (rank : UInt16 → Nat) (from_ : Endpoint) :
    Option (UInt16 × ManagedConnection) :=
  ((m.inOrder rank).filter (fun e => e.2.conn.remote == from_ && e.2.conn.state == .connected)).getLast?

namespace Peer

/-- The node after a poll, what the source returns, and the packets handed to the
    transport. -/
structure Polled where
  peer : Peer
  result : Int := 0
  sent : List (Bytes × Endpoint) := []

/-- The node with a connection replaced. -/
def putLink (p : Peer) (id : UInt16) (mc : ManagedConnection) : Peer :=
  { p with links := { p.links with connMgr := p.links.connMgr.put id mc } }

/-- A new connection is tried for a packet of the handshake, and taken out again
    unless the packet asks for one. -/
def autoAccept (P : Primitives) (p : Peer) (data : Bytes) (from_ : Endpoint) (x : Exchange) : Polled :=
  let autoId := p.nextAutoNodeId
  let p := { p with nextAutoNodeId := autoId + 1 }
  let (mgr,added) := p.links.connMgr.add autoId (x.clock 0)
  if !added then { peer := p }
  else
    let (event,conn) := processPacket P (.new (x.clock 0)) data
    if event.result = .connectReceived then
      let (cid,mgr) := mgr.nextConnId
      let (conn,_) := conn.accept cid 0 from_ (x.clock 1)
      let (pkt,conn) := buildAcceptPacket P conn (x.clock 2) (x.clock 3)
      let p := { p with links := { p.links with connMgr := mgr } }
      { peer := p.putLink autoId { remoteNodeId := autoId, conn := conn }, sent := [(pkt,from_)] }
    else
      { peer :=
          { p with
            nextAutoNodeId := p.nextAutoNodeId - 1
            links := { p.links with connMgr := mgr.remove autoId } } }

/-- A packet for a connection. Control packets only count as received. -/
def receive (P : Primitives) (p : Peer) (id : UInt16) (mc : ManagedConnection) (d : PacketDecoder) (data : Bytes)
    (from_ : Endpoint) (x : Exchange) : Polled :=
  let mc :=
    { mc with
      conn := mc.conn.updateRecvPacketNumber d.header.packetNumber
      recvTracker := mc.recvTracker.onPacketReceived d.header.packetNumber }
  match d.header.packetType with
  | .handshake =>
    let (event,conn) := processPacket P mc.conn data
    if event.result = .pingReceived then
      let (pong,conn) := buildPongPacket P conn event.ping.pingId event.ping.timestampUs (x.clock 0)
      { peer := p.putLink id { mc with conn := conn }, sent := [(pong,from_)] }
    else { peer := p.putLink id { mc with conn := conn } }
  | .data =>
    let (p,changes) := (p.putLink id mc).processDataFrames P mc x.clock d
    { peer := p, result := changes }
  | _ => { peer := p.putLink id mc }

def poll (P : Primitives) (p : Peer) (rank : UInt16 → Nat) (x : Exchange) : Polled :=
  if !p.links.connMgr.hasConnections then { peer := p, result := -1 }
  else
    match x.reply with
    | none => { peer := p }
    | some (data,from_) =>
      match PacketDecoder.ofPacket data with
      | none => { peer := p }
      | some d =>
        if !d.verifyChecksum P then { peer := p }
        else
          match p.links.connMgr.atEndpoint rank from_ with
          | some (id,mc) => p.receive P id mc d data from_ x
          | none =>
            if d.header.packetType = .handshake then p.autoAccept P data from_ x
            else
              match p.links.connMgr.primary rank with
              | none => { peer := p }
              | some (id,mc) => p.receive P id mc d data from_ x

end Peer

/-! ### Pings -/

namespace Pings
open Peer

/-- A packet with a ping in it. Pings are built with the packet type `control`. -/
def pingPacket (P : Primitives) (conn : Connection) (packetType : PacketType) (ping : PingFrame) (now : Nat) : Bytes :=
  (buildPacket P conn packetType conn.remoteConnId now .ping ping.encode).1

theorem pingPacket_control (P : Primitives) (conn : Connection) (pingId : UInt32) (now later : Nat) :
    pingPacket P conn .control ⟨pingId,conn.elapsedUs later⟩ now = (buildPingPacket P conn pingId now later).1 := rfl

/-- Node `b` holds an established connection with an address. -/
def LinkedTo (b : Peer) (id : UInt16) (origin : Endpoint) : Prop :=
  ∃ mc, b.links.connMgr.get id = some mc ∧ mc.conn.state = .connected ∧ mc.conn.remote = origin

/-- What the poll sent to the origin of a ping is its pong, and both ends stay
    connected. -/
def Answered (P : Primitives) (a : Connection) (id : UInt16) (origin : Endpoint) (ping : PingFrame) (polled : Polled) :
    Prop :=
  ∃ pong, (pong,origin) ∈ polled.sent ∧ (processPacket P a pong).1.result = .pongReceived ∧
    (processPacket P a pong).1.ping = ping ∧ (processPacket P a pong).2.state = .connected ∧
      ∃ mc, polled.peer.links.connMgr.get id = some mc ∧ mc.conn.state = .connected

theorem processPacket_ping (P : Primitives) (conn sender : Connection) (packetType : PacketType) (ping : PingFrame)
    (now : Nat) :
    ∃ n, processPacket P conn (pingPacket P sender packetType ping now) =
      ({ result := .pingReceived, ping := ping },{ conn with recvPktNum := n }) := by
  obtain ⟨n,received⟩ := processPacket_buildPacket P conn sender packetType sender.remoteConnId now .ping
    ping.encode (by decide : 8 ≤ 1024)
  refine ⟨n,received.trans ?_⟩
  simp [processFrames,processFrame,PingFrame.decode_encode,onFrame,onPingFrame]

theorem processPacket_pong (P : Primitives) (conn sender : Connection) (pingId echoTimestamp : UInt32) (now : Nat) :
    ∃ n, processPacket P conn (buildPongPacket P sender pingId echoTimestamp now).1 =
      ({ result := .pongReceived, ping := ⟨pingId,echoTimestamp⟩ },{ conn with recvPktNum := n }) := by
  obtain ⟨n,received⟩ := processPacket_buildPacket P conn sender .control sender.remoteConnId now .pong
    (PingFrame.mk pingId echoTimestamp).encode (by decide : 8 ≤ 1024)
  refine ⟨n,received.trans ?_⟩
  simp [processFrames,processFrame,PingFrame.decode_encode,onFrame,onPongFrame]

theorem atEndpoint_some {m : ConnectionManager} {rank : UInt16 → Nat} {from_ : Endpoint} {e : UInt16 × ManagedConnection}
    (found : m.atEndpoint rank from_ = some e) : m.get e.1 = some e.2 ∧ e.2.conn.state = .connected := by
  have member := List.mem_filter.mp (List.mem_of_getLast? found)
  simp only [Bool.and_eq_true,beq_iff_eq] at member
  exact ⟨(m.mem_inOrder rank e).mp member.1,member.2.2⟩

theorem atEndpoint_isSome {b : Peer} {id : UInt16} {origin : Endpoint} (linked : LinkedTo b id origin)
    (rank : UInt16 → Nat) :
    ∃ e, b.links.connMgr.atEndpoint rank origin = some e := by
  obtain ⟨mc,found,connected,remote⟩ := linked
  have listed : (id,mc) ∈ (b.links.connMgr.inOrder rank).filter
      (fun e => e.2.conn.remote == origin && e.2.conn.state == .connected) := by
    rw [List.mem_filter]
    exact ⟨(ConnectionManager.mem_inOrder _ rank (id,mc)).mpr found,by simp [remote,connected]⟩
  exact Option.isSome_iff_exists.mp (List.getLast?_isSome.mpr (List.ne_nil_of_mem listed))

theorem hasConnections_of_linked {b : Peer} {id : UInt16} {origin : Endpoint} (linked : LinkedTo b id origin) :
    b.links.connMgr.hasConnections = true := by
  obtain ⟨mc,found,connected,_⟩ := linked
  rw [ConnectionManager.hasConnections,List.any_eq_true]
  exact ⟨(id,mc),ExtTreeMap.mem_toList_iff_getElem?_eq_some.mpr found,by simp [connected]⟩

/-- A packet from a linked node goes to one of the connections with its address. -/
theorem poll_linked {P : Primitives} {b : Peer} {id : UInt16} {origin : Endpoint} (linked : LinkedTo b id origin)
    (rank : UInt16 → Nat) {x : Exchange} {data : Bytes} (arrived : x.reply = some (data,origin)) {d : PacketDecoder}
    (accepted : PacketDecoder.ofPacket data = some d) (checked : d.verifyChecksum P = true) :
    ∃ e : UInt16 × ManagedConnection, b.links.connMgr.get e.1 = some e.2 ∧ e.2.conn.state = .connected ∧
      b.poll P rank x = b.receive P e.1 e.2 d data origin x := by
  obtain ⟨e,found⟩ := atEndpoint_isSome linked rank
  obtain ⟨held,connected⟩ := atEndpoint_some found
  refine ⟨e,held,connected,?_⟩
  simp [poll,hasConnections_of_linked linked,arrived,accepted,checked,found]

/-- Putting an established connection back leaves the others connected. -/
theorem connected_putLink {b : Peer} {id : UInt16} {origin : Endpoint} (linked : LinkedTo b id origin) (other : UInt16)
    {mc : ManagedConnection} (connected : mc.conn.state = .connected) :
    ∃ mc', (b.putLink other mc).links.connMgr.get id = some mc' ∧ mc'.conn.state = .connected := by
  obtain ⟨held,found,still,_⟩ := linked
  rw [ConnectionManager.get] at found
  simp only [putLink,ConnectionManager.put,ConnectionManager.get,ExtTreeMap.getElem?_insert,LawfulEqCmp.compare_eq_iff_eq]
  split
  · exact ⟨mc,rfl,connected⟩
  · exact ⟨held,found,still⟩

section
variable (P : Primitives) (a : Connection) (b : Peer) (id : UInt16) (origin : Endpoint) (packetType : PacketType)
  (ping : PingFrame) (now : Nat) (rank : UInt16 → Nat) (x : Exchange)

theorem receive_ping (mc : ManagedConnection) {d : PacketDecoder} (kind : d.header.packetType = .handshake) :
    ∃ n m, b.receive P id mc d (pingPacket P a packetType ping now) origin x =
      { peer := b.putLink id
          { mc with
            conn := { mc.conn with recvPktNum := n, sendPktNum := mc.conn.sendPktNum + 1 }
            recvTracker := mc.recvTracker.onPacketReceived d.header.packetNumber }
        sent := [((buildPongPacket P { mc.conn with recvPktNum := m } ping.pingId ping.timestampUs (x.clock 0)).1,
          origin)] } := by
  obtain ⟨k,counted⟩ := updateRecvPacketNumber_eq mc.conn d.header.packetNumber
  obtain ⟨n,processed⟩ := processPacket_ping P { mc.conn with recvPktNum := k } a packetType ping now
  refine ⟨n,n,?_⟩
  simp only [receive,kind,counted,processed,if_true]
  rfl

/-- A ping from a linked node is answered exactly when it comes in a packet of the
    handshake. -/
theorem ping_answered_iff (origin_connected : a.state = .connected) (linked : LinkedTo b id origin)
    (arrived : x.reply = some (pingPacket P a packetType ping now,origin)) :
    Answered P a id origin ping (b.poll P rank x) ↔ packetType = .handshake := by
  obtain ⟨d,accepted,checked,kind,frames⟩ := ofPacket_buildPacket P a packetType a.remoteConnId now .ping
    ping.encode (by decide : 8 ≤ 1024)
  obtain ⟨e,held,connected,polled⟩ := poll_linked linked rank arrived accepted checked
  rw [polled]
  constructor
  · rintro ⟨pong,sent,_⟩
    cases packetType with
    | handshake => rfl
    | _ => simp [receive,kind] at sent
  · rintro rfl
    obtain ⟨n,m,received⟩ := receive_ping P a b e.1 origin .handshake ping now x e.2 kind
    obtain ⟨k,classified⟩ := processPacket_pong P a { e.2.conn with recvPktNum := m } ping.pingId ping.timestampUs
      (x.clock 0)
    rw [received]
    refine ⟨_,List.mem_singleton.mpr rfl,?_,?_,?_,connected_putLink linked e.1 connected⟩
    · rw [classified]
    · rw [classified]
    · rw [classified]
      exact origin_connected

end

/-! ### Two linked nodes -/

/-- The first packet of a client at port 1. -/
def dialed : LinkResult := ({} : Links).connectStart plain ⟨[],2⟩ { clock := fun _ => 0 }

/-- Node 2 has answered it. -/
def answered : LinkResult :=
  ({} : Links).acceptFrom plain { clock := fun _ => 0, reply := dialed.sent.head?.map (fun s => (s.1,⟨[],1⟩)) }

/-- The client has the answer. -/
def linked : LinkResult :=
  dialed.links.connectPoll plain { clock := fun _ => 0, reply := answered.sent.head?.map (fun s => (s.1,⟨[],2⟩)) }

/-- The client's end of the connection. -/
def clientEnd : Connection := ((linked.links.connMgr.get 0).map ManagedConnection.conn).getD (.new 0)

def serverNode : Peer := { Peer.new 2 (plainKeys 2) with links := answered.links }

theorem serverNode_linked : LinkedTo serverNode 0 ⟨[],1⟩ := by
  have held : (serverNode.links.connMgr.get 0).map (fun mc => (mc.conn.state,mc.conn.remote)) =
      some (.connected,⟨[],1⟩) := by decide +kernel
  obtain ⟨mc,found,same⟩ := Option.map_eq_some_iff.mp held
  exact ⟨mc,found,congrArg Prod.fst same,congrArg Prod.snd same⟩

theorem ping_answered_handshake :
    Answered plain clientEnd 0 ⟨[],1⟩ ⟨7,5⟩
      (serverNode.poll plain (fun id => id.toNat)
        { clock := fun _ => 0, reply := some (pingPacket plain clientEnd .handshake ⟨7,5⟩ 0,⟨[],1⟩) }) :=
  (ping_answered_iff plain clientEnd serverNode 0 ⟨[],1⟩ .handshake ⟨7,5⟩ 0 (fun id => id.toNat) _ (by decide +kernel)
    serverNode_linked rfl).mpr rfl

/-- The ping that the client builds is not answered. -/
theorem ping_unanswered :
    clientEnd.state = .connected ∧ LinkedTo serverNode 0 ⟨[],1⟩ ∧
      (serverNode.poll plain (fun id => id.toNat)
        { clock := fun _ => 0, reply := some ((buildPingPacket plain clientEnd 7 0 0).1,⟨[],1⟩) }).sent = [] := by
  refine ⟨by decide +kernel,serverNode_linked,?_⟩
  decide +kernel

end Pings
end Rom
