import Rom.PeerSend

/-!
How a node writes and hands out what it wrote (`set_lww`, `increment_counter` and
`flush` of `peer.cpp`), and what its connection calls do to it. A write is stamped with the
time of the connection that comes first in the table, or 0 when there is none. A
flush hands out what is new in every region, as long as a connection is
established (`flush_region`, `flush_deltas`).
-/
namespace Rom
open Std Rom.Runs

namespace Peer

/-- The time that a write is stamped with. -/
def writeTime (p : Peer) (rank : UInt16 → Nat) (now : Nat) : UInt32 :=
  match p.links.connMgr.primary rank with
  | none => 0
  | some (_,mc) => mc.conn.elapsedUs now

/-- The node after the write, and whether there is such a register. -/
def setLww (P : Primitives) (p : Peer) (path : StatePath) (data : Bytes) (rank : UInt16 → Nat) (now : Nat) : Peer × Bool :=
  let hash := P.xxhash32 path.path
  match p.state.get hash with
  | none => (p,false)
  | some region =>
    match region.crdtType, region.crdt with
    | .lwwRegister, .lwwRegister r =>
      let crdt := Crdt.lwwRegister (r.set data (p.writeTime rank now))
      let version := (region.version.increment p.nodeId).2
      ({ p with state := p.state.put hash { region with crdt := crdt, version := version } },true)
    | _, _ => (p,false)

/-- The node after the increment, and whether there is such a counter. -/
def incrementCounter (P : Primitives) (p : Peer) (path : StatePath) (amount : UInt64) : Peer × Bool :=
  let hash := P.xxhash32 path.path
  match p.state.get hash with
  | none => (p,false)
  | some region =>
    match region.crdtType, region.crdt with
    | .gCounter, .gCounter c =>
      let crdt := Crdt.gCounter (c.increment amount)
      let version := (region.version.increment p.nodeId).2
      ({ p with state := p.state.put hash { region with crdt := crdt, version := version } },true)
    | _, _ => (p,false)

/-- The node after a call that opens or closes connections. Leaving a node also
    drops its filter and its routes. -/
def linkCall (P : Primitives) (p : Peer) (x : Exchange) (call : LinkCall) : Peer :=
  let p := { p with links := (p.links.call P x call).links }
  match call with
  | .disconnectNode remoteNodeId _ =>
    { p with deltaFilters := p.deltaFilters.erase remoteNodeId, router := p.router.removeNode remoteNodeId }
  | _ => p

/-- From now on the deltas for a node pass a new filter. -/
def setConnectionResolution (p : Peer) (remoteNodeId : UInt16) (tier : ResolutionTier) (config : ResolutionConfig) : Peer :=
  { p with deltaFilters := p.deltaFilters.insert remoteNodeId { tier := tier, config := config } }

/-! ### Flush -/

/-- `flush` under way: the frames counted, how often the clock was read and what
    was handed to the transport. -/
structure Flushing where
  peer : Peer
  total : Nat := 0
  readings : Nat := 0
  sent : List (Bytes × Endpoint) := []

namespace Flushing

/-- One delta in front of the filter; the clock is read for each. -/
def filterDelta (clock : Nat → Nat) (st : (DeltaFilter × List PendingDelta) × Nat) (d : PendingDelta) :
    (DeltaFilter × List PendingDelta) × Nat :=
  let (f,forward) := st.1.1.shouldForward (clock st.2) d.pathHash d.data
  ((f,if forward then st.1.2 ++ [d] else st.1.2),st.2 + 1)

/-- The deltas go to one connection. -/
def send (P : Primitives) (clock : Nat → Nat) (st : Flushing) (id : UInt16) (mc : ManagedConnection)
    (deltas : List PendingDelta) : Flushing :=
  let r := st.peer.sendDeltasTo P mc (fun i => clock (st.readings + i)) deltas
  let links := { st.peer.links with connMgr := st.peer.links.connMgr.put id r.mc }
  { peer := { st.peer with links := links }
    total := st.total + r.framesSent
    readings := st.readings + r.readings
    sent := st.sent ++ r.sent }

/-- One connection: if it is established it gets the deltas that pass its filter. -/
def visit (P : Primitives) (clock : Nat → Nat) (deltas : List PendingDelta) (st : Flushing)
    (e : UInt16 × ManagedConnection) : Flushing :=
  if e.2.conn.state ≠ .connected then st
  else
    match st.peer.deltaFilters[e.2.remoteNodeId]? with
    | none => st.send P clock e.1 e.2 deltas
    | some f =>
      let ((f,filtered),readings) := deltas.foldl (filterDelta clock) ((f,[]),st.readings)
      let peer := { st.peer with deltaFilters := st.peer.deltaFilters.insert e.2.remoteNodeId f }
      let st := { st with peer := peer, readings := readings }
      if filtered.isEmpty then st else st.send P clock e.1 e.2 filtered

end Flushing

/-- The node after a flush, the deltas that it collected, and what the source
    returns. -/
structure Flushed where
  peer : Peer
  deltas : List PendingDelta := []
  result : Int
  sent : List (Bytes × Endpoint) := []

def flush (P : Primitives) (p : Peer) (rank : UInt16 → Nat) (clock : Nat → Nat) : Flushed :=
  if !p.links.connMgr.hasConnections then { peer := p, result := -1 }
  else
    let (deltas,state) := p.state.collectDeltas
    let p := { p with state := state }
    if deltas.isEmpty then { peer := p, result := 0 }
    else
      let st := run (Flushing.visit P clock deltas) ⟨p,0,0,[]⟩ (p.links.connMgr.inOrder rank)
      { peer := st.peer, deltas := deltas, result := st.total, sent := st.sent }

/-! ### What they do to the regions -/

theorem visit_state (P : Primitives) (clock : Nat → Nat) (deltas : List PendingDelta) (st : Flushing)
    (e : UInt16 × ManagedConnection) : (st.visit P clock deltas e).peer.state = st.peer.state := by
  rw [Flushing.visit]
  split
  · rfl
  · split
    · rfl
    · dsimp only
      split <;> rfl

/-- A flush collects the deltas of the registry when a connection is established,
    and does nothing to it otherwise. -/
theorem flush_state (P : Primitives) (p : Peer) (rank : UInt16 → Nat) (clock : Nat → Nat) :
    (p.flush P rank clock).peer.state = (if p.links.connMgr.hasConnections then p.state.collectDeltas.2 else p.state) ∧
      (p.flush P rank clock).deltas = if p.links.connMgr.hasConnections then p.state.collectDeltas.1 else [] := by
  rw [flush]
  cases p.links.connMgr.hasConnections with
  | false => exact ⟨rfl,rfl⟩
  | true =>
    simp only [Bool.not_true,Bool.false_eq_true,if_false,if_true]
    split
    · next none => exact ⟨rfl,(List.isEmpty_iff.mp none).symm⟩
    · refine ⟨?_,rfl⟩
      exact run_invariant (I := fun st : Flushing => st.peer.state = p.state.collectDeltas.2)
        (fun st e same => (visit_state P clock _ st e).trans same) rfl

theorem linkCall_state (P : Primitives) (p : Peer) (x : Exchange) (call : LinkCall) :
    (p.linkCall P x call).state = p.state := by
  cases call <;> rfl

end Peer
end Rom
