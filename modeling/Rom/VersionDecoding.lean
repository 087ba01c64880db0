import Rom.VersionOrder
import Rom.Recovery

/-!
Version vectors from the wire. `decode` takes entries as they come, also two for one
node, and such a vector does not equal itself and may not dominate itself, so that
a log hands out again the entry that a client has. A vector has one entry for each
node, and with it the order laws, exactly where the node ids at offsets 1, 7, 13, …
of the last bytes that it took over from the wire are different (`law_iff_distinct`).
-/
namespace Rom.VersionDecoding
open Std VersionVector

/-- A way to build a vector, from the wire too. -/
inductive Source where
  | empty
  | increment (of : Source) (nodeId : UInt16)
  | set (of : Source) (nodeId : UInt16) (seq : UInt32)
  | merge (of other : Source)
  | decode (of : Source) (buf : Bytes)
  deriving DecidableEq, Repr

/-- Bytes that are refused leave the vector as it is. -/
def Source.vector : Source → VersionVector
  | .empty => {}
  | .increment of nodeId => (of.vector.increment nodeId).2
  | .set of nodeId seq => of.vector.set nodeId seq
  | .merge of other => of.vector.merge other.vector
  | .decode of buf => (VersionVector.decode buf).getD of.vector

/-- The first byte is there, and as many entries of six bytes as it says. -/
def Whole (buf : Bytes) : Prop := 1 ≤ buf.length ∧ 1 + 6 * (byteAt buf 0).toNat ≤ buf.length

instance (buf : Bytes) : Decidable (Whole buf) :=
  inferInstanceAs (Decidable (1 ≤ buf.length ∧ 1 + 6 * (byteAt buf 0).toNat ≤ buf.length))

/-- The node ids on the wire: the first two bytes of each entry. -/
def nodeIds (buf : Bytes) : List UInt16 :=
  (List.range (byteAt buf 0).toNat).map (fun i => readU16 (buf.drop (1 + 6 * i)))

/-- The node ids of the last whole bytes that the vector was read from. -/
def Source.read : Source → List UInt16
  | .empty => []
  | .increment of _ => of.read
  | .set of _ _ => of.read
  | .merge of _ => of.read
  | .decode of buf => if Whole buf then nodeIds buf else of.read

/-- One entry for each node, and what the comparisons owe to it: the vector dominates
    and equals itself, and no entry since it has it as its version. -/
structure Law (v : VersionVector) : Prop where
  unique : v.Unique
  dominates : v.dominates v = true
  equals : v.equals v = true
  since : ∀ (log : EventLog) (pathHash : UInt32), ∀ entry ∈ log.entriesSince pathHash v,
    entry.version ≠ v ∧ entry.version.equals v = false

theorem dominates_of_equals {v other : VersionVector} (equal : other.equals v = true) : v.dominates other = true := by
  rw [dominates_iff]
  intro e member
  rw [VersionVector.equals,Bool.and_eq_true,List.all_eq_true] at equal
  have same : v.get e.nodeId = e.sequence := by simpa using equal.1 e member
  exact UInt32.le_of_eq same.symm

theorem law_of_unique {v : VersionVector} (unique : v.Unique) : Law v := by
  have dominates : v.dominates v = true := (dominates_iff_le unique).mpr le_rfl
  refine ⟨unique,dominates,(equals_iff unique unique).mpr rfl,?_⟩
  intro log pathHash entry member
  obtain ⟨_,_,new⟩ := (log.mem_entriesSince pathHash v entry).mp member
  constructor
  · intro same
    rw [same,dominates] at new
    cases new
  · by_contra equal
    rw [dominates_of_equals (Bool.of_not_eq_false equal)] at new
    cases new

theorem decodeLoop_nodes (n : ℕ) (p : Bytes) (entries : List VersionEntry) :
    (decodeLoop n p entries).map VersionEntry.nodeId =
      entries.map VersionEntry.nodeId ++ (List.range n).map (fun i => readU16 (p.drop (6 * i))) := by
  induction n generalizing p entries with
  | zero => exact (List.append_nil _).symm
  | succ n ih =>
    have later (i : ℕ) : (p.drop 6).drop (6 * i) = p.drop (6 * (i + 1)) := by
      rw [List.drop_drop,Nat.mul_succ,Nat.add_comm]
    rw [decodeLoop,ih,List.map_append,List.append_assoc,List.range_succ_eq_map]
    simp only [later,List.map_cons,List.map_map]
    rfl

/-- Whole bytes are read as they stand, and others are refused. -/
theorem decode_nodes (buf : Bytes) :
    (VersionVector.decode buf).map nodes = if Whole buf then some (nodeIds buf) else none := by
  rw [VersionVector.decode]
  by_cases first : buf.length < 1
  · rw [if_pos first,if_neg (fun whole => absurd first (Nat.not_lt.mpr whole.1))]
    rfl
  · by_cases rest : buf.length < 1 + (byteAt buf 0).toNat * 6
    · rw [if_neg first,if_pos rest,if_neg (fun whole => absurd whole.2 (by omega))]
      rfl
    · rw [if_neg first,if_neg rest,if_pos ⟨Nat.not_lt.mp first,by omega⟩,Option.map_some,nodes,decodeLoop_nodes,nodeIds]
      simp only [List.drop_drop]
      rfl

/-- Only a `decode` decides whether two entries are of one node. -/
theorem unique_iff (s : Source) : s.vector.Unique ↔ s.read.Nodup := by
  induction s with
  | empty => exact Iff.rfl
  | increment of nodeId ih =>
    rw [Source.vector,increment_eq,Source.read]
    exact (unique_change _ nodeId _).trans ih
  | set of nodeId seq ih =>
    rw [Source.vector,set_eq,Source.read]
    exact (unique_change _ nodeId _).trans ih
  | merge of other ih _ => exact (unique_merge _ _).trans ih
  | decode of buf ih =>
    have read := decode_nodes buf
    rw [Source.vector,Source.read]
    cases got : VersionVector.decode buf with
    | none =>
      rw [got] at read
      split at read
      · cases read
      · next refused => rwa [if_neg refused]
    | some v =>
      rw [got] at read
      split at read
      · next whole =>
        rw [if_pos whole,← Option.some.inj read]
        exact Iff.rfl
      · cases read

/-- What a request is read with are vectors that `decode` reads. -/
def FromWire (request : RecoveryRequest) : Prop :=
  ∀ (pathHash : UInt32) (v : VersionVector), request.knownVersions[pathHash]? = some v →
    ∃ buf, VersionVector.decode buf = some v

theorem fromWire_decodeLoop (n : ℕ) (p : Bytes) {out : RecoveryRequest} (held : FromWire out) :
    FromWire (RecoveryRequest.decodeLoop n p out).1 := by
  induction n generalizing p out with
  | zero => exact held
  | succ n ih =>
    rw [RecoveryRequest.decodeLoop]
    split
    · exact held
    · dsimp only
      split
      · exact held
      · split
        · exact held
        · cases read : VersionVector.decode ((p.drop 4).take (1 + (byteAt (p.drop 4) 0).toNat * 6)) with
          | none => exact held
          | some vv =>
            refine ih _ ?_
            intro pathHash v found
            rw [ExtTreeMap.getElem?_insert] at found
            split at found
            · cases found
              exact ⟨_,read⟩
            · exact held pathHash v found

theorem fromWire_decode (data : Bytes) : FromWire (RecoveryRequest.decode data {}).1 := by
  have none : FromWire {} := by
    intro pathHash v found
    rw [ExtTreeMap.getElem?_empty] at found
    cases found
  rw [RecoveryRequest.decode]
  split
  · exact none
  · exact fromWire_decodeLoop _ _ none

/-- A vector has one entry for each node, and with it the laws, exactly where the
    entries of the last whole bytes that it was read from name different nodes. The
    vectors of a request are such vectors. -/
theorem law_iff_distinct (s : Source) :
    (Law s.vector ↔ s.read.Nodup) ∧
      ∀ (data : Bytes) (pathHash : UInt32) (v : VersionVector),
        (RecoveryRequest.decode data {}).1.knownVersions[pathHash]? = some v →
          ∃ buf, (Source.decode .empty buf).vector = v := by
  constructor
  · rw [← unique_iff]
    exact ⟨Law.unique,law_of_unique⟩
  · intro data pathHash v found
    obtain ⟨buf,read⟩ := fromWire_decode data pathHash v found
    refine ⟨buf,?_⟩
    rw [Source.vector,read]
    rfl

/-- A request with two entries for node 1 is accepted. The vector does not dominate
    or equal itself, and the log hands out the entry of that very version. -/
theorem duplicate_entries :
    (RecoveryRequest.decode [0,1,0,0,0,9,2,0,1,0,0,0,1,0,1,0,0,0,2] {}).2 = true ∧
      (RecoveryRequest.decode [0,1,0,0,0,9,2,0,1,0,0,0,1,0,1,0,0,0,2] {}).1.knownVersions[(9 : UInt32)]? =
        some ⟨[⟨1,1⟩,⟨1,2⟩]⟩ ∧
      ¬ VersionVector.Unique ⟨[⟨1,1⟩,⟨1,2⟩]⟩ ∧
      VersionVector.dominates ⟨[⟨1,1⟩,⟨1,2⟩]⟩ ⟨[⟨1,1⟩,⟨1,2⟩]⟩ = false ∧
      VersionVector.equals ⟨[⟨1,1⟩,⟨1,2⟩]⟩ ⟨[⟨1,1⟩,⟨1,2⟩]⟩ = false ∧
      ((EventLog.appendDelta {} 9 .lwwRegister ⟨[⟨1,1⟩,⟨1,2⟩]⟩ [] 0).1.entriesSince 9 ⟨[⟨1,1⟩,⟨1,2⟩]⟩).map
        LogEntry.version = [⟨[⟨1,1⟩,⟨1,2⟩]⟩] := by
  decide +kernel

end Rom.VersionDecoding
