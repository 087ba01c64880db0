import Rom.Handshake

/-!
How a node opens and closes its connections (the connection part of `peer.h` and
`peer.cpp`): to the one other node, whose connection stands under the node id 0,
or to several. A call reads the clock a few times, sends at most one packet and
waits for at most one (`Exchange`). None of them touches what the node holds.
-/
namespace Rom
open Handshake

inductive HandshakeState where
  | none
  | connecting
  | accepting
  deriving DecidableEq, Repr

/-- The connections of a node, and how far a handshake is that does not block. -/
structure Links where
  connMgr : ConnectionManager := {}
  hsState : HandshakeState := .none

/-- The readings of the clock during a call, whether its packet is sent, and the
    packet that is received, if one is. -/
structure Exchange where
  clock : Nat → Nat
  sends : Bool := true
  reply : Option (Bytes × Endpoint) := none

/-- The connections after a call, what it returns, if it returns something, and the
    packets handed to the transport. -/
structure LinkResult where
  links : Links
  ok : Bool
  sent : List (Bytes × Endpoint) := []

namespace Links

/-- A connection is initiated and its first packet sent. -/
def dial (P : Primitives) (l : Links) (id : UInt16) (remote : Endpoint) (x : Exchange) : LinkResult :=
  match l.connMgr.get id with
  | none => ⟨l,false,[]⟩
  | some mc =>
    let (cid,mgr) := l.connMgr.nextConnId
    let (conn,ok) := mc.conn.initiate cid remote (x.clock 1)
    if !ok then ⟨{ l with connMgr := mgr },false,[]⟩
    else
      let (pkt,conn) := buildConnectPacket P conn (x.clock 2)
      ⟨{ l with connMgr := mgr.put id { mc with conn := conn } },x.sends,[(pkt,remote)]⟩

/-- The packet that is waited for should accept the connection. -/
def awaitAccept (P : Primitives) (l : Links) (id : UInt16) (x : Exchange) : LinkResult :=
  match l.connMgr.get id, x.reply with
  | some mc, some (data,_) =>
    let (event,conn) := processPacket P mc.conn data
    ⟨{ l with connMgr := l.connMgr.put id { mc with conn := conn } },event.result == .acceptReceived,[]⟩
  | _, _ => ⟨l,false,[]⟩

/-- The packet that is waited for should ask for a connection, which is accepted. -/
def answer (P : Primitives) (l : Links) (id : UInt16) (x : Exchange) : LinkResult :=
  match l.connMgr.get id, x.reply with
  | some mc, some (data,from_) =>
    let (event,conn) := processPacket P mc.conn data
    if event.result ≠ .connectReceived then
      ⟨{ l with connMgr := l.connMgr.put id { mc with conn := conn } },false,[]⟩
    else
      let (cid,mgr) := l.connMgr.nextConnId
      let (conn,_) := conn.accept cid 0 from_ (x.clock 1)
      let (pkt,conn) := buildAcceptPacket P conn (x.clock 2) (x.clock 3)
      ⟨{ l with connMgr := mgr.put id { mc with conn := conn } },conn.state == .connected,[(pkt,from_)]⟩
  | _, _ => ⟨l,false,[]⟩

/-! ### One other node -/

/-- The connection under 0 is there, and new if it was not. -/
def openSlot (l : Links) (now : Nat) : Links := { l with connMgr := (l.connMgr.add 0 now).1 }

def connect (P : Primitives) (l : Links) (remote : Endpoint) (x : Exchange) : LinkResult :=
  let dialed := (l.openSlot (x.clock 0)).dial P 0 remote x
  if !dialed.ok then dialed else { dialed.links.awaitAccept P 0 x with sent := dialed.sent }

def acceptFrom (P : Primitives) (l : Links) (x : Exchange) : LinkResult := (l.openSlot (x.clock 0)).answer P 0 x

/-- An established connection is closed and its last packet sent. -/
def closeLink (P : Primitives) (l : Links) (id : UInt16) (reason : CloseReason) (x : Exchange) : LinkResult :=
  match l.connMgr.get id with
  | none => ⟨l,false,[]⟩
  | some mc =>
    if mc.conn.state ≠ .connected then ⟨l,false,[]⟩
    else
      let (conn,_) := mc.conn.close reason
      let (pkt,conn) := buildClosePacket P conn reason (x.clock 0)
      ⟨{ l with connMgr := l.connMgr.put id { mc with conn := conn } },true,[(pkt,conn.remote)]⟩

/-- The first connection is closed and stays in the table. -/
def disconnect (P : Primitives) (l : Links) (rank : UInt16 → Nat) (reason : CloseReason) (x : Exchange) : LinkResult :=
  match l.connMgr.primary rank with
  | none => ⟨l,false,[]⟩
  | some (id,_) => l.closeLink P id reason x

def connectStart (P : Primitives) (l : Links) (remote : Endpoint) (x : Exchange) : LinkResult :=
  let dialed := (l.openSlot (x.clock 0)).dial P 0 remote x
  if !dialed.ok then dialed else { dialed with links := { dialed.links with hsState := .connecting } }

/-- A poll of a handshake: it is over when the connection is established, and else
    takes the next packet. -/
def pollHandshake (l : Links) (expected : HandshakeState) (next : Links → LinkResult) : LinkResult :=
  if l.hsState ≠ expected then ⟨l,false,[]⟩
  else
    match l.connMgr.get 0 with
    | none => ⟨l,false,[]⟩
    | some mc =>
      if mc.conn.state = .connected then ⟨{ l with hsState := .none },true,[]⟩
      else
        let r := next l
        if !r.ok then r else { r with links := { r.links with hsState := .none } }

def connectPoll (P : Primitives) (l : Links) (x : Exchange) : LinkResult :=
  l.pollHandshake .connecting (fun l => l.awaitAccept P 0 x)

def acceptStart (l : Links) (x : Exchange) : LinkResult :=
  ⟨{ l.openSlot (x.clock 0) with hsState := .accepting },true,[]⟩

def acceptPoll (P : Primitives) (l : Links) (x : Exchange) : LinkResult :=
  l.pollHandshake .accepting (fun l => l.answer P 0 x)

/-! ### Several other nodes -/

/-- A new connection is tried, and taken out again when it fails. -/
def tryNew (l : Links) (id : UInt16) (x : Exchange) (attempt : Links → LinkResult) : LinkResult :=
  let (mgr,added) := l.connMgr.add id (x.clock 0)
  if !added then ⟨l,false,[]⟩
  else
    let r := attempt { l with connMgr := mgr }
    if !r.ok then { r with links := { r.links with connMgr := r.links.connMgr.remove id } } else r

def connectTo (P : Primitives) (l : Links) (remoteNodeId : UInt16) (remote : Endpoint) (x : Exchange) : LinkResult :=
  l.tryNew remoteNodeId x fun l =>
    let dialed := l.dial P remoteNodeId remote x
    if !dialed.ok then dialed else { dialed.links.awaitAccept P remoteNodeId x with sent := dialed.sent }

def acceptNode (P : Primitives) (l : Links) (remoteNodeId : UInt16) (x : Exchange) : LinkResult :=
  l.tryNew remoteNodeId x fun l => l.answer P remoteNodeId x

/-- The connection is closed, if it is established, and taken out. -/
def disconnectNode (P : Primitives) (l : Links) (remoteNodeId : UInt16) (reason : CloseReason) (x : Exchange) :
    LinkResult :=
  let closed := l.closeLink P remoteNodeId reason x
  { closed with links := { closed.links with connMgr := closed.links.connMgr.remove remoteNodeId } }

end Links

/-- A call that opens or closes connections. -/
inductive LinkCall where
  | connect (remote : Endpoint)
  | acceptFrom
  | disconnect (rank : UInt16 → Nat) (reason : CloseReason)
  | connectStart (remote : Endpoint)
  | connectPoll
  | acceptStart
  | acceptPoll
  | connectTo (remoteNodeId : UInt16) (remote : Endpoint)
  | acceptNode (remoteNodeId : UInt16)
  | disconnectNode (remoteNodeId : UInt16) (reason : CloseReason)

def Links.call (P : Primitives) (l : Links) (x : Exchange) : LinkCall → LinkResult
  | .connect remote => l.connect P remote x
  | .acceptFrom => l.acceptFrom P x
  | .disconnect rank reason => l.disconnect P rank reason x
  | .connectStart remote => l.connectStart P remote x
  | .connectPoll => l.connectPoll P x
  | .acceptStart => l.acceptStart x
  | .acceptPoll => l.acceptPoll P x
  | .connectTo remoteNodeId remote => l.connectTo P remoteNodeId remote x
  | .acceptNode remoteNodeId => l.acceptNode P remoteNodeId x
  | .disconnectNode remoteNodeId reason => l.disconnectNode P remoteNodeId reason x

end Rom
