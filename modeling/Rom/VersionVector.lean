import Rom.Bytes

/-!
Version vectors (`version_vector.h`, `version_vector.cpp`): for each node the
sequence number up to which its changes are known, 0 where the vector has no
entry. Lookups take the first entry of a node, also in a vector that was decoded
with several. One vector dominates another when it is at least as far for every
entry of the other; this is transitive for all entry lists (`dominates_trans`).
-/
namespace Rom

structure VersionEntry where
  nodeId : UInt16
  sequence : UInt32
  deriving DecidableEq, Repr

structure VersionVector where
  entries : List VersionEntry := []
  deriving DecidableEq, Repr

namespace VersionVector

def find (v : VersionVector) (nodeId : UInt16) : Option VersionEntry := v.entries.find? (fun e => e.nodeId == nodeId)

/-- The sequence number of a node, 0 if it has no entry. -/
def get (v : VersionVector) (nodeId : UInt16) : UInt32 :=
  match v.find nodeId with
  | some e => e.sequence
  | none => 0

/-- Changes the entry that `find` returns. -/
def update (v : VersionVector) (nodeId : UInt16) (f : UInt32 → UInt32) : VersionVector :=
  { v with
    entries := v.entries.modify (v.entries.findIdx (fun e => e.nodeId == nodeId))
      (fun e => { e with sequence := f e.sequence }) }

/-- The new sequence number of the node, and the vector with it. -/
def increment (v : VersionVector) (nodeId : UInt16) : UInt32 × VersionVector :=
  match v.find nodeId with
  | some e => (e.sequence + 1,v.update nodeId (· + 1))
  | none => (1,{ v with entries := v.entries ++ [⟨nodeId,1⟩] })

def set (v : VersionVector) (nodeId : UInt16) (seq : UInt32) : VersionVector :=
  match v.find nodeId with
  | some _ => v.update nodeId (fun _ => seq)
  | none => { v with entries := v.entries ++ [⟨nodeId,seq⟩] }

/-- One entry of another vector: the larger sequence number is kept. -/
def mergeEntry (v : VersionVector) (oe : VersionEntry) : VersionVector :=
  match v.find oe.nodeId with
  | some _ => v.update oe.nodeId (fun sequence => max sequence oe.sequence)
  | none => { v with entries := v.entries ++ [oe] }

def merge (v other : VersionVector) : VersionVector := other.entries.foldl mergeEntry v

def dominates (v other : VersionVector) : Bool := other.entries.all (fun oe => !decide (v.get oe.nodeId < oe.sequence))

def concurrentWith (v other : VersionVector) : Bool := !v.dominates other && !other.dominates v

/-- `operator==`: the same sequence numbers for all nodes present in either. -/
def equals (v other : VersionVector) : Bool :=
  v.entries.all (fun e => !(other.get e.nodeId != e.sequence)) &&
    other.entries.all (fun e => !(v.get e.nodeId != e.sequence))

def lessThan (v other : VersionVector) : Bool := other.dominates v && !v.equals other

def encodeEntry (e : VersionEntry) : Bytes := writeU16 e.nodeId ++ writeU32 e.sequence

/-- All entries are written, whatever number stands before them. -/
def encode (v : VersionVector) : Bytes := UInt8.ofNat v.entries.length :: v.entries.flatMap encodeEntry

/-- Reads `n` entries; the caller has checked that they are there. -/
def decodeLoop : Nat → Bytes → List VersionEntry → List VersionEntry
  | 0, _, entries => entries
  | n+1, p, entries => decodeLoop n (p.drop 6) (entries ++ [⟨readU16 p,readU32 (p.drop 2)⟩])

def decode (buf : Bytes) : Option VersionVector :=
  if buf.length < 1 then none
  else
    let count := (byteAt buf 0).toNat
    let needed := 1 + count * 6
    if buf.length < needed then none
    else some ⟨decodeLoop count (buf.drop 1) []⟩

theorem dominates_iff (v other : VersionVector) :
    v.dominates other = true ↔ ∀ e ∈ other.entries, e.sequence ≤ v.get e.nodeId := by
  simp [dominates,List.all_eq_true]

/-- What a lookup finds is an entry, or nothing and 0. -/
theorem get_cases (v : VersionVector) (nodeId : UInt16) :
    v.get nodeId = 0 ∨ ∃ e ∈ v.entries, e.nodeId = nodeId ∧ v.get nodeId = e.sequence := by
  rw [get]
  cases found : v.find nodeId with
  | none => exact .inl rfl
  | some e => exact .inr ⟨e,List.mem_of_find?_eq_some found,by simpa using List.find?_some found,rfl⟩

theorem dominates_trans {u v w : VersionVector} (first : u.dominates v = true) (second : v.dominates w = true) :
    u.dominates w = true := by
  rw [dominates_iff] at *
  intro e member
  have reached := second e member
  rcases get_cases v e.nodeId with none | ⟨f,listed,same,found⟩
  · rw [none] at reached
    exact UInt32.le_trans reached (UInt32.zero_le)
  · rw [found] at reached
    exact UInt32.le_trans reached (same ▸ first f listed)

end VersionVector
end Rom
