import Rom.AckTracker
import Rom.Codec
import Mathlib.Data.List.Sort
import Std.Data.ExtTreeMap

/-!
A connection to another node (`connection.h`, `connection.cpp`) and the table of
connections (`connection_manager.h`, `connection_manager.cpp`). Times are
microseconds of one steady clock; what a connection tells is the time since its
epoch, in 32 bits, and the epoch is when it was initiated or accepted. The source
keeps connections in a hash table, which gives no order; where the order shows it
is that of a ranking of the nodes, which may be any.
-/
namespace Rom
open Std

structure Endpoint where
  address : Bytes
  port : UInt16
  deriving DecidableEq, Repr

inductive ConnectionState where
  | idle
  | connecting
  | accepting
  | connected
  | closing
  | closed
  deriving DecidableEq, Repr

structure ConnectionConfig where
  maxFrameSize : UInt16 := UInt16.ofNat (maxPacketSize - packetHeaderSize)
  deriving DecidableEq, Repr

structure Connection where
  state : ConnectionState := .idle
  localConnId : UInt16 := 0
  remoteConnId : UInt16 := 0
  remote : Endpoint
  config : ConnectionConfig := {}
  sendPktNum : UInt32 := 0
  recvPktNum : UInt32 := 0
  negotiatedMaxFrame : UInt16 := 0
  peerVersion : UInt8 := 0
  epochUs : Nat := 0
  srttUs : UInt32 := 0
  deriving DecidableEq, Repr

namespace Connection

def new (now : Nat) : Connection := { remote := ⟨[],0⟩, epochUs := now }

/-- The next packet number, and the connection after it is taken. -/
def nextSendPacketNumber (c : Connection) : UInt32 × Connection :=
  (c.sendPktNum,{ c with sendPktNum := c.sendPktNum + 1 })

def elapsedUs (c : Connection) (now : Nat) : UInt32 := UInt32.ofNat (now - c.epochUs)

def initiate (c : Connection) (localConnId : UInt16) (remote : Endpoint) (now : Nat) : Connection × Bool :=
  if c.state ≠ .idle then (c,false)
  else ({ c with localConnId := localConnId, remote := remote, epochUs := now, state := .connecting },true)

def accept (c : Connection) (localConnId remoteConnId : UInt16) (remote : Endpoint) (now : Nat) : Connection × Bool :=
  if c.state ≠ .idle ∧ c.state ≠ .accepting then (c,false)
  else
    ({ c with
        localConnId := localConnId
        remoteConnId := remoteConnId
        remote := remote
        epochUs := now
        state := .connected },true)

/-- The timestamp of the server is not used. -/
def onAccept (c : Connection) (assignedConnId : UInt16) (_serverTimestamp : UInt32) : Connection × Bool :=
  if c.state ≠ .connecting then (c,false)
  else ({ c with remoteConnId := assignedConnId, state := .connected },true)

def onConnect (c : Connection) (peerVersion : UInt8) (peerMaxFrameSize : UInt16) : Connection :=
  { c with
    peerVersion := peerVersion
    negotiatedMaxFrame := min c.config.maxFrameSize peerMaxFrameSize
    state := .accepting }

def close (c : Connection) (_reason : CloseReason) : Connection × Bool :=
  if c.state ≠ .connected then (c,false) else ({ c with state := .closing },true)

def onClose (c : Connection) (_reason : CloseReason) : Connection := { c with state := .closed }

def updateRecvPacketNumber (c : Connection) (pktNum : UInt32) : Connection :=
  if pktNum > c.recvPktNum then { c with recvPktNum := pktNum } else c

end Connection

structure ManagedConnection where
  remoteNodeId : UInt16
  conn : Connection
  sendTracker : SendTracker := {}
  recvTracker : RecvTracker := {}

/-- The connection of concrete runs. -/
def plainLink : ManagedConnection := { remoteNodeId := 2, conn := { remote := ⟨[],0⟩ } }

structure ConnectionManager where
  conns : ExtTreeMap UInt16 ManagedConnection := ∅
  nextId : UInt16 := 1

namespace ConnectionManager

/-- The table with a new connection for the node, unless there is one, and whether
    it was added. -/
def add (m : ConnectionManager) (remoteNodeId : UInt16) (now : Nat) : ConnectionManager × Bool :=
  if m.conns.contains remoteNodeId then (m,false)
  else ({ m with conns := m.conns.insert remoteNodeId { remoteNodeId := remoteNodeId, conn := .new now } },true)

def remove (m : ConnectionManager) (remoteNodeId : UInt16) : ConnectionManager :=
  { m with conns := m.conns.erase remoteNodeId }

def get (m : ConnectionManager) (remoteNodeId : UInt16) : Option ManagedConnection := m.conns[remoteNodeId]?

/-- The table after a connection in it has changed. -/
def put (m : ConnectionManager) (remoteNodeId : UInt16) (mc : ManagedConnection) : ConnectionManager :=
  { m with conns := m.conns.insert remoteNodeId mc }

def hasConnections (m : ConnectionManager) : Bool := m.conns.toList.any (fun e => e.2.conn.state == .connected)

/-- The connections in the order of the table, by a ranking of their nodes. -/
def inOrder (m : ConnectionManager) (rank : UInt16 → Nat) : List (UInt16 × ManagedConnection) :=
  m.conns.toList.insertionSort (fun a b => rank a.1 ≤ rank b.1)

theorem mem_inOrder (m : ConnectionManager) (rank : UInt16 → Nat) (e : UInt16 × ManagedConnection) :
    e ∈ m.inOrder rank ↔ m.get e.1 = some e.2 := by
  rw [inOrder,List.mem_insertionSort,get]
  exact ExtTreeMap.mem_toList_iff_getElem?_eq_some

/-- The first connection of the table. -/
def primary (m : ConnectionManager) (rank : UInt16 → Nat) : Option (UInt16 × ManagedConnection) := (m.inOrder rank).head?

/-- The next connection id, never 0, and the table after it is taken. -/
def nextConnId (m : ConnectionManager) : UInt16 × ConnectionManager :=
  if m.nextId = 0 then (1,{ m with nextId := 2 }) else (m.nextId,{ m with nextId := m.nextId + 1 })

end ConnectionManager
end Rom
