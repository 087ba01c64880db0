import Rom.Bytes
import Mathlib.Data.Prod.Lex

/-!
The last-writer-wins register (`lww_register.h`, `lww_register.cpp`). A register
holds a value under a stamp of a timestamp and a node id, ordered
lexicographically (`stamp`); a merge adopts the incoming value when its stamp is
greater, so it takes the larger of the two stamps (`stamp_merge`). A local write
overwrites the value and the timestamp and leaves the node id as it is.
-/
namespace Rom

structure LwwRegister where
  value : Bytes := []
  timestamp : UInt32 := 0
  nodeId : UInt16 := 0
  dirty : Bool := false
  deriving DecidableEq, Repr

namespace LwwRegister

/-- A timestamp and a node id stand before the value on the wire. -/
def headerSize : Nat := 6

def new (nodeId : UInt16) : LwwRegister := { nodeId := nodeId }

def set (r : LwwRegister) (data : Bytes) (timestampUs : UInt32) : LwwRegister :=
  { r with value := data, timestamp := timestampUs, dirty := true }

def incomingWins (r : LwwRegister) (ts : UInt32) (node : UInt16) : Bool :=
  if ts > r.timestamp then true else if ts == r.timestamp && node > r.nodeId then true else false

/-- The register after a merge, and whether it changed. -/
def merge (r : LwwRegister) (data : Bytes) : LwwRegister × Bool :=
  if data.length < headerSize then (r,false)
  else
    let ts := readU32 data
    let node := readU16 (data.drop 4)
    if r.incomingWins ts node then
      ({ r with timestamp := ts, nodeId := node, value := data.drop headerSize },true)
    else (r,false)

def encodeState (r : LwwRegister) : Bytes := writeU32 r.timestamp ++ writeU16 r.nodeId ++ r.value

def snapshot (r : LwwRegister) : Bytes := r.encodeState

/-- The bytes to send, empty when there is nothing new, and the register after. -/
def delta (r : LwwRegister) : Bytes × LwwRegister :=
  if !r.dirty then ([],r) else (r.encodeState,{ r with dirty := false })

def hasPendingDelta (r : LwwRegister) : Bool := r.dirty

/-! ### Stamps -/

/-- A stamp, in the order in which writes win. -/
abbrev Stamp := ℕ ×ₗ ℕ

def stampOf (ts : UInt32) (node : UInt16) : Stamp := toLex (ts.toNat,node.toNat)

def stamp (r : LwwRegister) : Stamp := stampOf r.timestamp r.nodeId

/-- The stamp that a delta carries; a delta too short for one counts as the least. -/
def wireStamp (data : Bytes) : Stamp :=
  if data.length < headerSize then toLex (0,0) else stampOf (readU32 data) (readU16 (data.drop 4))

theorem stampOf_injective {ts ts' : UInt32} {node node' : UInt16} (same : stampOf ts node = stampOf ts' node') :
    ts = ts' ∧ node = node' := by
  have pair := toLex_inj.mp same
  rw [Prod.mk.injEq] at pair
  exact ⟨UInt32.toNat_inj.mp pair.1,UInt16.toNat_inj.mp pair.2⟩

/-- The incoming write wins exactly when its stamp is greater. -/
theorem incomingWins_iff (r : LwwRegister) (ts : UInt32) (node : UInt16) :
    r.incomingWins ts node = true ↔ r.stamp < stampOf ts node := by
  rw [stamp,stampOf,stampOf,Prod.Lex.toLex_lt_toLex]
  simp only [incomingWins,gt_iff_lt,UInt32.lt_iff_toNat_lt,UInt16.lt_iff_toNat_lt]
  split
  · next later => simp [later]
  · next notLater =>
    split
    · next tie =>
      simp only [Bool.and_eq_true,beq_iff_eq,decide_eq_true_eq] at tie
      simp [tie.1,tie.2]
    · next noTie =>
      simp only [Bool.and_eq_true,beq_iff_eq,decide_eq_true_eq,not_and] at noTie
      simp only [Bool.false_eq_true,false_iff,not_or,not_and]
      refine ⟨notLater,fun same => noTie (UInt32.toNat_inj.mp same.symm)⟩

/-- A merge keeps the register or makes it a copy of the delta. -/
theorem merge_cases (r : LwwRegister) (data : Bytes) :
    (r.merge data).1 = r ∧ wireStamp data ≤ r.stamp ∨
    headerSize ≤ data.length ∧ r.stamp < wireStamp data ∧
      (r.merge data).1 =
        { r with timestamp := readU32 data, nodeId := readU16 (data.drop 4), value := data.drop headerSize } := by
  unfold merge wireStamp
  by_cases short : data.length < headerSize
  · refine .inl ⟨by simp [short],?_⟩
    rw [if_pos short]
    exact Prod.Lex.toLex_le_toLex.mpr (by omega)
  · simp only [if_neg short]
    by_cases wins : r.incomingWins (readU32 data) (readU16 (data.drop 4)) = true
    · exact .inr ⟨not_lt.mp short,(incomingWins_iff r _ _).mp wins,by simp [wins]⟩
    · refine .inl ⟨by simp [wins],?_⟩
      exact not_lt.mp (fun lt => wins ((incomingWins_iff r _ _).mpr lt))

/-- A merge takes the larger stamp. -/
theorem stamp_merge (r : LwwRegister) (data : Bytes) : (r.merge data).1.stamp = max r.stamp (wireStamp data) := by
  rcases merge_cases r data with ⟨same,le⟩ | ⟨long,lt,copied⟩
  · rw [same,max_eq_left le]
  · rw [copied,max_eq_right lt.le]
    simp [stamp,wireStamp,not_lt.mpr long]

@[simp] theorem encodeState_length (r : LwwRegister) : r.encodeState.length = headerSize + r.value.length := by
  simp [encodeState,headerSize]; omega

@[simp] theorem wireStamp_encodeState (r : LwwRegister) : wireStamp r.encodeState = r.stamp := by
  have long : ¬ r.encodeState.length < headerSize := by simp
  rw [wireStamp,if_neg long]
  simp [encodeState,stamp]

@[simp] theorem drop_encodeState (r : LwwRegister) : r.encodeState.drop headerSize = r.value := by
  have header : (writeU32 r.timestamp ++ writeU16 r.nodeId).length = headerSize := rfl
  rw [encodeState,← header,List.drop_left]

/-- What a merge takes over from a delta, sent on, is the delta. -/
theorem encodeState_copied (r : LwwRegister) {data : Bytes} (long : headerSize ≤ data.length) :
    encodeState { r with timestamp := readU32 data, nodeId := readU16 (data.drop 4), value := data.drop headerSize } =
      data := by
  rw [headerSize] at long
  rw [encodeState,writeU32_read (by omega),writeU16_read (by rw [List.length_drop]; omega),← List.take_add]
  exact List.take_append_drop 6 data

/-- Nothing happens on merging a delta that is not newer. -/
theorem merge_of_le {r : LwwRegister} {data : Bytes} (le : wireStamp data ≤ r.stamp) : (r.merge data).1 = r := by
  rcases merge_cases r data with ⟨same,_⟩ | ⟨_,lt,_⟩
  · exact same
  · exact absurd le (not_le.mpr lt)

theorem merge_of_lt {r : LwwRegister} {data : Bytes} (lt : r.stamp < wireStamp data) :
    (r.merge data).1 =
      { r with timestamp := readU32 data, nodeId := readU16 (data.drop 4), value := data.drop headerSize } := by
  rcases merge_cases r data with ⟨_,le⟩ | ⟨_,_,copied⟩
  · exact absurd lt (not_lt.mpr le)
  · exact copied

/-- Merging what a register holds after a delta does what merging what it held
    before, and then the delta, does. -/
theorem merge_snapshot_merge (r c : LwwRegister) (data : Bytes) :
    (r.merge (c.merge data).1.snapshot).1 = ((r.merge c.snapshot).1.merge data).1 := by
  have held : c.stamp ≤ (r.merge c.snapshot).1.stamp := by
    rw [stamp_merge,snapshot,wireStamp_encodeState]
    exact le_max_right _ _
  rcases merge_cases c data with ⟨same,le⟩ | ⟨long,lt,copied⟩
  · rw [same,merge_of_le (le.trans held)]
  · rw [copied,snapshot,encodeState_copied c long]
    by_cases newer : r.stamp < c.stamp
    · have adopted : r.stamp < wireStamp c.snapshot := by rwa [snapshot,wireStamp_encodeState]
      have later : (r.merge c.snapshot).1.stamp < wireStamp data := by
        rw [stamp_merge,snapshot,wireStamp_encodeState,max_eq_right newer.le]
        exact lt
      rw [merge_of_lt (newer.trans lt),merge_of_lt later,merge_of_lt adopted]
    · have kept : wireStamp c.snapshot ≤ r.stamp := by
        rw [snapshot,wireStamp_encodeState]
        exact not_lt.mp newer
      rw [merge_of_le kept]

end LwwRegister
end Rom
