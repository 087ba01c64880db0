import Rom.Bytes

/-!
The counters (`g_counter.h`, `g_counter.cpp`, `pn_counter.h`, `pn_counter.cpp`).
A grow-only counter keeps a count for each node and merges them by the larger
one; the counter that also goes down is two of these, of which the second counts
down.
-/
namespace Rom

structure GCounterEntry where
  nodeId : UInt16
  count : UInt64
  deriving DecidableEq, Repr

structure GCounter where
  nodeId : UInt16
  entries : List GCounterEntry
  dirty : Bool := false
  deriving DecidableEq, Repr

namespace GCounter

/-- `ENTRY_WIRE_SIZE`. -/
def entryWireSize : Nat := 10

def new (nodeId : UInt16) : GCounter := { nodeId := nodeId, entries := [⟨nodeId,0⟩] }

def find (c : GCounter) (nodeId : UInt16) : Option GCounterEntry := c.entries.find? (fun e => e.nodeId == nodeId)

/-- Changes the entry that `find` returns. -/
def update (c : GCounter) (nodeId : UInt16) (f : UInt64 → UInt64) : GCounter :=
  { c with
    entries := c.entries.modify (c.entries.findIdx (fun e => e.nodeId == nodeId)) (fun e => { e with count := f e.count }) }

def increment (c : GCounter) (amount : UInt64) : GCounter :=
  match c.find c.nodeId with
  | some _ => { c.update c.nodeId (· + amount) with dirty := true }
  | none => { c with entries := c.entries ++ [⟨c.nodeId,amount⟩], dirty := true }

def value (c : GCounter) : UInt64 := c.entries.foldl (fun sum e => sum + e.count) 0

def localCount (c : GCounter) : UInt64 :=
  match c.find c.nodeId with
  | some e => e.count
  | none => 0

/-- One incoming entry: a larger count replaces the one held. -/
def mergeEntry (st : GCounter × Bool) (nid : UInt16) (cnt : UInt64) : GCounter × Bool :=
  match st.1.find nid with
  | some e => if cnt > e.count then (st.1.update nid (fun _ => cnt),true) else st
  | none => ({ st.1 with entries := st.1.entries ++ [⟨nid,cnt⟩] },true)

/-- Reads `n` entries; the caller has checked that they are there. -/
def mergeLoop : Nat → Bytes → GCounter × Bool → GCounter × Bool
  | 0, _, st => st
  | n+1, p, st => mergeLoop n (p.drop entryWireSize) (mergeEntry st (readU16 p) (readU64 (p.drop 2)))

/-- The counter after the merge, and whether the merge reports a change. -/
def merge (c : GCounter) (data : Bytes) : GCounter × Bool :=
  if data.length < 1 then (c,false)
  else
    let count := (byteAt data 0).toNat
    if data.length < 1 + count * entryWireSize then (c,false)
    else mergeLoop count (data.drop 1) (c,false)

def encodeEntry (e : GCounterEntry) : Bytes := writeU16 e.nodeId ++ writeU64 e.count

def snapshot (c : GCounter) : Bytes := UInt8.ofNat c.entries.length :: c.entries.flatMap encodeEntry

/-- The bytes to send, which hold the node's own entry, and the counter after. -/
def delta (c : GCounter) : Bytes × GCounter :=
  if !c.dirty then ([],c)
  else
    match c.find c.nodeId with
    | none => ([],{ c with dirty := false })
    | some e => (1 :: encodeEntry e,{ c with dirty := false })

def hasPendingDelta (c : GCounter) : Bool := c.dirty

end GCounter

structure PnCounter where
  p : GCounter
  n : GCounter
  deriving DecidableEq, Repr

namespace PnCounter

def new (nodeId : UInt16) : PnCounter := ⟨.new nodeId,.new nodeId⟩

def increment (c : PnCounter) (amount : UInt64) : PnCounter := { c with p := c.p.increment amount }
def decrement (c : PnCounter) (amount : UInt64) : PnCounter := { c with n := c.n.increment amount }

def value (c : PnCounter) : Int64 := c.p.value.toInt64 - c.n.value.toInt64

def hasPendingDelta (c : PnCounter) : Bool := c.p.hasPendingDelta || c.n.hasPendingDelta

/-- The first half is merged even when the second is cut off. -/
def merge (c : PnCounter) (data : Bytes) : PnCounter × Bool :=
  if data.length < 2 then (c,false)
  else
    let pSize := 1 + (byteAt data 0).toNat * GCounter.entryWireSize
    if data.length < pSize + 1 then (c,false)
    else
      let (p,changedP) := c.p.merge (data.take pSize)
      let (n,changedN) := c.n.merge (data.drop pSize)
      (⟨p,n⟩,changedP || changedN)

def snapshot (c : PnCounter) : Bytes := c.p.snapshot ++ c.n.snapshot

/-- One half of a delta: its own, or a snapshot when it has none. -/
def deltaHalf (c : GCounter) : Bytes × GCounter := if c.hasPendingDelta then c.delta else (c.snapshot,c)

def delta (c : PnCounter) : Bytes × PnCounter :=
  let (pPart,p) := deltaHalf c.p
  let (nPart,n) := deltaHalf c.n
  (pPart ++ nPart,⟨p,n⟩)

end PnCounter
end Rom
