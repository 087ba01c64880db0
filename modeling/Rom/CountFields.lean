import Rom.WireFormats
import Rom.Orderly

/-!
The numbers in front of entries, tags, elements and tombstones on the wire. They
have 8 or 16 bits, and nothing keeps a value within them: an element of 65536 bytes
is written behind the length 0 (`element_unread`), and a counter of 256 nodes behind
the number 0. What a value or a version vector writes is read back whole exactly
while it stays within the limits (`read_back_iff`).
-/
namespace Rom.CountFields
open Std Rom.Runs Format
open Rom.GCounter (Distinct sentEntries Sound)
open Rom.OrSet (Fits listed)

/-- The bytes are read as the value, and all of them are. -/
def Recovered {α : Type*} (f : Format α) (data : Bytes) (a : α) : Prop := f.read data = some (a,[])

/-- What the value hands out, as a snapshot or a delta, is read back whole. -/
def ReadBack : Crdt → Prop
  | .lwwRegister _ => True
  | .gCounter c =>
    Recovered GCounter.format c.snapshot c.entries ∧
      (c.hasPendingDelta → Recovered GCounter.format c.delta.1 (c.find c.nodeId).toList)
  | .pnCounter c =>
    Recovered PnCounter.format c.snapshot (c.p.entries,c.n.entries) ∧
      Recovered PnCounter.format c.delta.1 (sentEntries c.p,sentEntries c.n)
  | .orSet s =>
    Recovered OrSet.format s.snapshot (listed s.entries ∅) ∧
      (s.hasPendingDelta → Recovered OrSet.format s.delta.1 (listed s.pendingAdds s.pendingRemoves))

/-- The numbers hold what they stand for. -/
def Limits : Crdt → Prop
  | .lwwRegister _ => True
  | .gCounter c => c.entries.length < 2^8
  | .pnCounter c => c.p.entries.length < 2^8 ∧ c.n.entries.length < 2^8
  | .orSet s => Fits s.entries ∅ ∧ (s.hasPendingDelta → Fits s.pendingAdds s.pendingRemoves)

theorem recovered_counter (l : List GCounterEntry) :
    Recovered GCounter.format (GCounter.encodeEntries l) l ↔ l.length < 2^8 := by
  rw [GCounter.encodeEntries_eq]
  exact (read_write_iff GCounter.format l).trans (GCounter.fits_format l)

theorem recovered_counters (l m : List GCounterEntry) :
    Recovered PnCounter.format (GCounter.encodeEntries l ++ GCounter.encodeEntries m) (l,m) ↔
      l.length < 2^8 ∧ m.length < 2^8 := by
  rw [GCounter.encodeEntries_eq,GCounter.encodeEntries_eq]
  exact (read_write_iff PnCounter.format (l,m)).trans (and_congr (GCounter.fits_format l) (GCounter.fits_format m))

theorem recovered_vector (v : VersionVector) :
    Recovered VersionVector.format v.encode v.entries ↔ v.entries.length < 2^8 := by
  rw [VersionVector.encode_eq]
  exact (read_write_iff VersionVector.format v.entries).trans (VersionVector.fits_format v.entries)

theorem recovered_set {entries : EntryMap} (trim : OrSet.Trim entries) (tombstones : TagSet) :
    Recovered OrSet.format (OrSet.encodeEntries entries tombstones) (listed entries tombstones) ↔
      Fits entries tombstones := by
  rw [OrSet.encodeEntries_eq]
  exact (read_write_iff OrSet.format _).trans (OrSet.fits_listed trim tombstones)

theorem gCounter_iff {c : GCounter} (distinct : Distinct c) : ReadBack (.gCounter c) ↔ Limits (.gCounter c) := by
  obtain ⟨S,sound⟩ := distinct
  have own : c.hasPendingDelta → Recovered GCounter.format c.delta.1 (c.find c.nodeId).toList := by
    intro dirty
    obtain ⟨e,found,_⟩ := GCounter.find_own sound
    have dirty : c.dirty = true := dirty
    rw [GCounter.delta_bytes sound,if_pos dirty,found]
    exact (recovered_counter [e]).mpr (Nat.one_lt_two_pow (by decide))
  exact (and_iff_left own).trans (recovered_counter c.entries)

/-- What is sent of a half is not more than it holds. -/
theorem sentEntries_limited {c : GCounter} (few : c.entries.length < 2^8) : (sentEntries c).length < 2^8 := by
  rw [sentEntries]
  split
  · cases c.find c.nodeId with
    | none => decide
    | some e => exact Nat.one_lt_two_pow (by decide)
  · exact few

theorem pnCounter_iff {c : PnCounter} (orderly : Orderly (.pnCounter c)) :
    ReadBack (.pnCounter c) ↔ Limits (.pnCounter c) := by
  obtain ⟨S,up⟩ : Distinct c.p := orderly .up
  obtain ⟨T,down⟩ : Distinct c.n := orderly .down
  have delta : c.delta.1 = GCounter.encodeEntries (sentEntries c.p) ++ GCounter.encodeEntries (sentEntries c.n) := by
    show (PnCounter.deltaHalf c.p).1 ++ (PnCounter.deltaHalf c.n).1 = _
    rw [GCounter.deltaHalf_bytes up,GCounter.deltaHalf_bytes down]
  have snapshot := recovered_counters c.p.entries c.n.entries
  show Recovered PnCounter.format (GCounter.encodeEntries c.p.entries ++ GCounter.encodeEntries c.n.entries) _ ∧ _ ↔ _
  rw [delta,snapshot,recovered_counters]
  exact and_iff_left_of_imp (fun few => ⟨sentEntries_limited few.1,sentEntries_limited few.2⟩)

theorem orSet_iff {s : OrSet} (orderly : Orderly (.orSet s)) : ReadBack (.orSet s) ↔ Limits (.orSet s) := by
  refine and_congr (recovered_set orderly.1 ∅) (forall_congr' (fun pending => ?_))
  have dirty : s.dirty = true := pending
  have delta : s.delta.1 = OrSet.encodeEntries s.pendingAdds s.pendingRemoves := by
    simp [OrSet.delta,dirty]
  rw [delta]
  exact recovered_set orderly.2 s.pendingRemoves

/-- Whatever has been done with a replica, what it hands out is read back whole
    exactly if it is within the limits; and so for a version vector. -/
theorem read_back_iff (n : UInt16) (type : CrdtType) (c : Crdt)
    (created : (StateRegistry.new n).createCrdt type = some c) (actions : List Action) (v : VersionVector) :
    (ReadBack (run Crdt.act c actions) ↔ Limits (run Crdt.act c actions)) ∧
      (Recovered VersionVector.format v.encode v.entries ↔ v.entries.length < 2^8) := by
  constructor
  · have orderly := Orderly.reached created actions
    cases reached : run Crdt.act c actions with
    | lwwRegister r => exact Iff.rfl
    | gCounter c => exact gCounter_iff (reached ▸ orderly : Orderly (.gCounter c))
    | pnCounter c => exact pnCounter_iff (reached ▸ orderly)
    | orSet s => exact orSet_iff (reached ▸ orderly)
  · exact recovered_vector v

/-- Adds and a remove, with the delta of another set in between. -/
def someChanges : List Action :=
  [.change (.add [120]),.change (.add [120,121]),.merge ((OrSet.new 2).add [122]).delta.1,.delta,.change (.add []),
    .change (.remove [120])]

/-- A set with a few elements and the vector of a few nodes are read back. -/
theorem read_back_few :
    ReadBack (run Crdt.act (.orSet (.new 1)) someChanges) ∧
      Recovered VersionVector.format (VersionVector.mk [⟨1,7⟩,⟨65535,1⟩,⟨2,0⟩]).encode [⟨1,7⟩,⟨65535,1⟩,⟨2,0⟩] := by
  obtain ⟨set,vector⟩ := read_back_iff 1 .orSet (.orSet (.new 1)) rfl someChanges ⟨[⟨1,7⟩,⟨65535,1⟩,⟨2,0⟩]⟩
  exact ⟨set.mpr ⟨by decide +kernel,by decide +kernel⟩,vector.mpr (by decide)⟩

/-- An element of 65536 zeros. -/
def longElement : Bytes := List.replicate 65536 0

/-- The length of an element of 65536 bytes is written as 0, so what follows is
    taken for something else. -/
theorem element_unread : ¬ ReadBack (run Crdt.act (.orSet (.new 1)) [.change (.add longElement)]) := by
  have orderly : Orderly (.orSet ((OrSet.new 1).add longElement)) :=
    Orderly.change (c := .orSet (.new 1)) ⟨OrSet.trim_empty,OrSet.trim_empty⟩ (.add longElement)
  intro back
  have fits := ((orSet_iff orderly).mp back).1
  have entry : ((OrSet.new 1).add longElement).entries[longElement]? = some ((∅ : TagSet).insert ⟨1,1⟩) := by
    simp [OrSet.add,insertTag,OrSet.new,OrSet.nextTag]
  have small := fits.elem (longElement,_) (ExtTreeMap.mem_toList_iff_getElem?_eq_some.mpr entry)
  rw [longElement,List.length_replicate] at small
  omega

end Rom.CountFields
