import Rom.PeerWrites

/-!
The last write at the other end. A node writes one of its registers, opens and
closes connections and flushes; its deltas for the register reach one other
replica, which never writes, in the order in which they were handed out. After
each of them the replica should hold the value of the last write that has been
handed out with it. A write is stamped with the time since the epoch of whichever
connection comes first, so a new connection sets the clock back, and the replica
then keeps an older write (`write_lost_after_reconnect`). It holds the last write
in every run in which each write is stamped above the one before it
(`last_write_wins`).
-/
namespace Rom.LastWrite
open Std Rom.Runs LwwRegister

/-- A delta on its way, with the value of the last write when it was handed out. -/
structure Handed where
  bytes : Bytes
  value : Option Bytes
  deriving DecidableEq

/-- The node, its deltas for the register that are on their way, and the other
    replica. -/
structure Writing where
  peer : Peer
  /-- The value of the last write. -/
  written : Option Bytes := none
  /-- The stamp of the last write; before the first, that of the other replica. -/
  newest : Stamp
  inFlight : List Handed := []
  remote : LwwRegister
  /-- The value of the last write that a merged delta was handed out with. -/
  included : Option Bytes := none

inductive Event where
  | set (rank : UInt16 → Nat) (now : Nat) (data : Bytes)
  | flush (rank : UInt16 → Nat) (clock : Nat → Nat)
  | link (x : Exchange) (call : LinkCall)
  | deliver

def begin (p : Peer) (remoteId : UInt16) : Writing :=
  { peer := p, newest := (LwwRegister.new remoteId).stamp, remote := .new remoteId }

/-- The stamp of a write that is made now. -/
def writeStamp (s : Writing) (rank : UInt16 → Nat) (now : Nat) : Stamp :=
  stampOf (s.peer.writeTime rank now) s.peer.state.nodeId

def step (P : Primitives) (path : StatePath) (s : Writing) : Event → Writing
  | .set rank now data =>
    let (peer,ok) := s.peer.setLww P path data rank now
    if ok then { s with peer := peer, written := some data, newest := writeStamp s rank now } else s
  | .flush rank clock =>
    let flushed := s.peer.flush P rank clock
    let deltas := flushed.deltas.filter (fun d => d.pathHash == P.xxhash32 path.path)
    { s with peer := flushed.peer, inFlight := s.inFlight ++ deltas.map (fun d => ⟨d.data,s.written⟩) }
  | .link x call => { s with peer := s.peer.linkCall P x call }
  | .deliver =>
    match s.inFlight with
    | [] => s
    | d :: rest => { s with inFlight := rest, remote := (s.remote.merge d.bytes).1, included := d.value }

/-- The replica holds the last write that has reached it. -/
def LastWriteWins (s : Writing) : Prop := ∀ value ∈ s.included, s.remote.value = value

instance : DecidablePred LastWriteWins :=
  fun s => inferInstanceAs (Decidable (∀ value ∈ s.included, s.remote.value = value))

/-- A write is stamped above the write before it. -/
def Rises (s : Writing) : Event → Prop
  | .set rank now _ => s.newest < writeStamp s rank now
  | _ => True

instance (s : Writing) (e : Event) : Decidable (Rises s e) :=
  match e with
  | .set rank now _ => inferInstanceAs (Decidable (s.newest < writeStamp s rank now))
  | .flush _ _ => isTrue trivial
  | .link _ _ => isTrue trivial
  | .deliver => isTrue trivial

/-! ### What runs keep -/

/-- The register of the node, beside what is on its way. -/
structure Register (hash : UInt32) (s : Writing) (region : StateRegion) (r : LwwRegister) : Prop where
  found : s.peer.state.get hash = some region
  type : region.crdtType = .lwwRegister
  crdt : region.crdt = .lwwRegister r
  own : r.nodeId = s.peer.state.nodeId
  clean : s.written = none → r.dirty = false
  value : ∀ value ∈ s.written, r.value = value ∧ r.stamp = s.newest
  dirty : r.dirty = true → s.remote.stamp < s.newest ∧ ∀ d ∈ s.inFlight, wireStamp d.bytes < s.newest

/-- The deltas rise from the replica to the register, and each carries its value. -/
structure Tidy (hash : UInt32) (s : Writing) : Prop where
  register : ∃ region r, Register hash s region r
  ordered : s.inFlight.Pairwise (fun a b => wireStamp a.bytes < wireStamp b.bytes)
  ahead : ∀ d ∈ s.inFlight, s.remote.stamp < wireStamp d.bytes
  behind : s.remote.stamp ≤ s.newest ∧ ∀ d ∈ s.inFlight, wireStamp d.bytes ≤ s.newest
  carries : ∀ d ∈ s.inFlight, headerSize ≤ d.bytes.length ∧ d.value = some (d.bytes.drop headerSize)
  wins : LastWriteWins s

section
variable {P : Primitives} {path : StatePath} {s : Writing}

theorem step_set {rank : UInt16 → Nat} {now : Nat} {data : Bytes} {region : StateRegion} {r : LwwRegister}
    (register : Register (P.xxhash32 path.path) s region r) :
    step P path s (.set rank now data) =
      { s with
        peer := { s.peer with
          state := s.peer.state.put (P.xxhash32 path.path)
            { region with
              crdt := .lwwRegister (r.set data (s.peer.writeTime rank now))
              version := (region.version.increment s.peer.nodeId).2 } }
        written := some data
        newest := writeStamp s rank now } := by
  simp only [step,Peer.setLww,register.found,register.type,register.crdt,if_true]

theorem tidy_set {rank : UInt16 → Nat} {now : Nat} {data : Bytes} (tidy : Tidy (P.xxhash32 path.path) s)
    (rises : s.newest < writeStamp s rank now) :
    Tidy (P.xxhash32 path.path) (step P path s (.set rank now data)) := by
  obtain ⟨region,r,register⟩ := tidy.register
  rw [step_set register]
  refine ⟨⟨{ region with
      crdt := .lwwRegister (r.set data (s.peer.writeTime rank now))
      version := (region.version.increment s.peer.nodeId).2 },
    r.set data (s.peer.writeTime rank now),?_⟩,tidy.ordered,tidy.ahead,?_,tidy.carries,tidy.wins⟩
  · refine ⟨?_,register.type,rfl,register.own,?_,?_,?_⟩
    · simp [StateRegistry.get,StateRegistry.put]
    · intro unwritten
      cases unwritten
    · intro value written
      cases written
      refine ⟨rfl,?_⟩
      show stampOf _ r.nodeId = stampOf _ _
      rw [register.own]
      rfl
    · intro _
      exact ⟨tidy.behind.1.trans_lt rises,fun d member => (tidy.behind.2 d member).trans_lt rises⟩
  · exact ⟨tidy.behind.1.trans rises.le,fun d member => (tidy.behind.2 d member).trans rises.le⟩

/-- A flush leaves the register and adds no delta of it, or hands it out and
    leaves it clean. -/
theorem flush_cases (rank : UInt16 → Nat) (clock : Nat → Nat) {region : StateRegion} {r : LwwRegister}
    (register : Register (P.xxhash32 path.path) s region r) :
    (step P path s (.flush rank clock)).inFlight = s.inFlight ∧
        (step P path s (.flush rank clock)).peer.state.get (P.xxhash32 path.path) = some region ∨
      r.dirty = true ∧ (step P path s (.flush rank clock)).inFlight = s.inFlight ++ [⟨r.encodeState,s.written⟩] ∧
        (step P path s (.flush rank clock)).peer.state.get (P.xxhash32 path.path) =
          some { region with crdt := .lwwRegister { r with dirty := false } } := by
  obtain ⟨state,deltas⟩ := Peer.flush_state P s.peer rank clock
  obtain ⟨after,handed⟩ := s.peer.state.collectDeltas_region register.found
  simp only [step,state,deltas]
  cases s.peer.links.connMgr.hasConnections with
  | false => exact .inl ⟨by simp,register.found⟩
  | true =>
    simp only [if_true,handed,after,StateRegistry.handed,StateRegistry.collected,register.crdt,Crdt.hasPendingDelta,
      Crdt.delta,hasPendingDelta]
    cases dirty : r.dirty with
    | false => exact .inl ⟨by simp,by simp⟩
    | true =>
      have sized : r.encodeState ≠ [] := by simp [encodeState,writeU32]
      exact .inr ⟨rfl,by simp [LwwRegister.delta,dirty,sized],by simp [LwwRegister.delta,dirty]⟩

theorem flush_nodeId (rank : UInt16 → Nat) (clock : Nat → Nat) :
    (step P path s (.flush rank clock)).peer.state.nodeId = s.peer.state.nodeId := by
  simp only [step,(Peer.flush_state P s.peer rank clock).1]
  split <;> rfl

/-- Only the register and the node's id matter of the node. -/
theorem tidy_kept {hash : UInt32} {peer : Peer} {region : StateRegion} {r : LwwRegister} (tidy : Tidy hash s)
    (register : Register hash s region r) (found : peer.state.get hash = some region)
    (nodeId : peer.state.nodeId = s.peer.state.nodeId) : Tidy hash { s with peer := peer } :=
  ⟨⟨region,r,found,register.type,register.crdt,register.own.trans nodeId.symm,register.clean,register.value,register.dirty⟩,
    tidy.ordered,tidy.ahead,tidy.behind,tidy.carries,tidy.wins⟩

theorem tidy_flush {rank : UInt16 → Nat} {clock : Nat → Nat} (tidy : Tidy (P.xxhash32 path.path) s) :
    Tidy (P.xxhash32 path.path) (step P path s (.flush rank clock)) := by
  obtain ⟨region,r,register⟩ := tidy.register
  have nodeId : (step P path s (.flush rank clock)).peer.state.nodeId = s.peer.state.nodeId := flush_nodeId rank clock
  rcases flush_cases rank clock register with ⟨same,found⟩ | ⟨dirty,handed,found⟩
  · have kept : step P path s (.flush rank clock) = { s with peer := (step P path s (.flush rank clock)).peer } :=
      calc step P path s (.flush rank clock)
        _ = { s with
              peer := (step P path s (.flush rank clock)).peer
              inFlight := (step P path s (.flush rank clock)).inFlight } := rfl
        _ = _ := by rw [same]
    rw [kept]
    exact tidy_kept tidy register found nodeId
  · -- what is handed out was written
    obtain ⟨value,written⟩ : ∃ value, s.written = some value := by
      cases written : s.written with
      | none => exact absurd ((register.clean written).symm.trans dirty) Bool.false_ne_true
      | some value => exact ⟨value,rfl⟩
    obtain ⟨same,stamp⟩ := register.value value written
    obtain ⟨above,aboveAll⟩ := register.dirty dirty
    have wire : wireStamp r.encodeState = s.newest := (wireStamp_encodeState r).trans stamp
    have flying : ∀ d ∈ (step P path s (.flush rank clock)).inFlight, d ∈ s.inFlight ∨ d = ⟨r.encodeState,s.written⟩ := by
      intro d member
      rw [handed,List.mem_append,List.mem_singleton] at member
      exact member
    refine ⟨⟨_,{ r with dirty := false },found,register.type,rfl,register.own.trans nodeId.symm,fun _ => rfl,
      register.value,?_⟩,?_,?_,?_,?_,tidy.wins⟩
    · intro still
      cases still
    · rw [handed,List.pairwise_append]
      refine ⟨tidy.ordered,List.pairwise_singleton _ _,?_⟩
      intro d member last listed
      rw [List.mem_singleton.mp listed,wire]
      exact aboveAll d member
    · intro d member
      rcases flying d member with old | rfl
      · exact tidy.ahead d old
      · rw [wire]
        exact above
    · refine ⟨tidy.behind.1,?_⟩
      intro d member
      rcases flying d member with old | rfl
      · exact tidy.behind.2 d old
      · exact wire.le
    · intro d member
      rcases flying d member with old | rfl
      · exact tidy.carries d old
      · refine ⟨?_,?_⟩
        · rw [encodeState_length]
          exact Nat.le_add_right _ _
        · rw [drop_encodeState,same]
          exact written

theorem tidy_link {x : Exchange} {call : LinkCall} (tidy : Tidy (P.xxhash32 path.path) s) :
    Tidy (P.xxhash32 path.path) (step P path s (.link x call)) := by
  obtain ⟨region,r,register⟩ := tidy.register
  have same := Peer.linkCall_state P s.peer x call
  have found : (Peer.linkCall P s.peer x call).state.get (P.xxhash32 path.path) = some region := by
    rw [same]
    exact register.found
  exact tidy_kept tidy register found (by rw [same])

theorem tidy_deliver (tidy : Tidy (P.xxhash32 path.path) s) :
    Tidy (P.xxhash32 path.path) (step P path s .deliver) := by
  cases flight : s.inFlight with
  | nil =>
    rw [step,flight]
    exact tidy
  | cons d rest =>
    obtain ⟨region,r,register⟩ := tidy.register
    have first : d ∈ s.inFlight := by simp [flight]
    have later : ∀ d' ∈ rest, d' ∈ s.inFlight := by
      intro d' member
      simp [flight,member]
    obtain ⟨long,value⟩ := tidy.carries d first
    have merged := merge_of_lt (tidy.ahead d first)
    have stamp : (s.remote.merge d.bytes).1.stamp = wireStamp d.bytes := by
      rw [stamp_merge,max_eq_right (tidy.ahead d first).le]
    have ordered := tidy.ordered
    rw [flight] at ordered
    obtain ⟨ahead,ordered⟩ := List.pairwise_cons.mp ordered
    simp only [step,flight]
    refine ⟨⟨region,r,register.found,register.type,register.crdt,register.own,register.clean,register.value,?_⟩,
      ordered,?_,?_,?_,?_⟩
    · intro dirty
      obtain ⟨_,aboveAll⟩ := register.dirty dirty
      rw [stamp]
      exact ⟨aboveAll d first,fun d' member => aboveAll d' (later d' member)⟩
    · intro d' member
      rw [stamp]
      exact ahead d' member
    · rw [stamp]
      exact ⟨tidy.behind.2 d first,fun d' member => tidy.behind.2 d' (later d' member)⟩
    · exact fun d' member => tidy.carries d' (later d' member)
    · intro value' included
      have same : d.bytes.drop headerSize = value' := Option.some.inj (value.symm.trans included)
      show (s.remote.merge d.bytes).1.value = value'
      rw [merged]
      exact same

theorem tidy_step (e : Event) (tidy : Tidy (P.xxhash32 path.path) s) (rises : Rises s e) :
    Tidy (P.xxhash32 path.path) (step P path s e) := by
  cases e with
  | set rank now data => exact tidy_set tidy rises
  | flush rank clock => exact tidy_flush tidy
  | link x call => exact tidy_link tidy
  | deliver => exact tidy_deliver tidy

end

/-- A register that was just declared is as it is constructed. -/
theorem get_declared {P : Primitives} {p : Peer} {path : StatePath} {rel : Reliability}
    (declared : (p.declare P path .lwwRegister rel).2 = true) :
    (p.declare P path .lwwRegister rel).1.state.get (P.xxhash32 path.path) =
        some ⟨path,.lwwRegister,rel,.lwwRegister (.new p.state.nodeId),{}⟩ ∧
      (p.declare P path .lwwRegister rel).1.state.nodeId = p.state.nodeId := by
  simp only [Peer.declare,StateRegistry.declare,StateRegistry.createCrdt] at declared ⊢
  split at declared
  · cases declared
  · next free => simp [free,StateRegistry.get]

theorem tidy_begin {P : Primitives} {p : Peer} {path : StatePath} {rel : Reliability}
    (declared : (p.declare P path .lwwRegister rel).2 = true) (remoteId : UInt16) :
    Tidy (P.xxhash32 path.path) (begin (p.declare P path .lwwRegister rel).1 remoteId) := by
  obtain ⟨found,nodeId⟩ := get_declared declared
  refine ⟨⟨_,.new p.state.nodeId,found,rfl,rfl,nodeId.symm,fun _ => rfl,?_,?_⟩,List.Pairwise.nil,?_,?_,?_,?_⟩
  · intro value written
    cases written
  · intro dirty
    cases dirty
  · intro d member
    cases member
  · refine ⟨le_rfl,?_⟩
    intro d member
    cases member
  · intro d member
    cases member
  · intro value included
    cases included

/-- The other replica holds the last write that has reached it, if writes are
    stamped in the order in which they are made. -/
theorem last_write_wins (P : Primitives) (p : Peer) (path : StatePath) (rel : Reliability)
    (declared : (p.declare P path .lwwRegister rel).2 = true) (remoteId : UInt16) (es : List Event)
    (rises : Along (step P path) Rises (begin (p.declare P path .lwwRegister rel).1 remoteId) es) :
    Everywhere (step P path) LastWriteWins (begin (p.declare P path .lwwRegister rel).1 remoteId) es :=
  rises.everywhere (fun _ e tidy rises => tidy_step e tidy rises) (fun _ tidy => tidy.wins) (tidy_begin declared remoteId)

/-! ### Two connections -/

/-- The node of concrete runs, with a register at its path. -/
def here : Peer := ((Peer.new 1 (plainKeys 1)).declare plain ⟨ofText "/x"⟩ .lwwRegister .reliable).1

def there : Endpoint := ⟨ofText "there",7⟩

/-- The answer of the other node to a request for a connection. -/
def acceptReply : Bytes := (Handshake.buildAcceptPacket plain { localConnId := 5, remote := there } 0 0).1

/-- A connection to the other node is opened at a time. -/
def connectAt (now : Nat) : Event := .link ⟨fun _ => now,true,some (acceptReply,there)⟩ (.connectTo 2 there)

/-- A value is written at a time, handed out and delivered. -/
def sendAt (now : Nat) (data : Bytes) : List Event :=
  [.set (fun _ => 0) now data,.flush (fun _ => 0) (fun _ => now),.deliver]

theorem last_write_wins_one_connection :
    Everywhere (step plain ⟨ofText "/x"⟩) LastWriteWins (begin here 2)
      (connectAt 100 :: sendAt 1100 [1] ++ sendAt 1200 [2]) :=
  last_write_wins plain (Peer.new 1 (plainKeys 1)) ⟨ofText "/x"⟩ .reliable (by decide +kernel) 2
    (connectAt 100 :: sendAt 1100 [1] ++ sendAt 1200 [2]) (by decide +kernel)

/-- A connection is left and opened again, and the next write is stamped below the
    last one. -/
theorem write_lost_after_reconnect :
    ¬ Everywhere (step plain ⟨ofText "/x"⟩) LastWriteWins (begin here 2)
      (connectAt 100 :: sendAt 1100 [1] ++
        .link ⟨fun _ => 1200,true,none⟩ (.disconnectNode 2 .normal) :: connectAt 2000 :: sendAt 2001 [2]) := by
  decide +kernel

end Rom.LastWrite
