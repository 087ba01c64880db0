import Rom.Formats
import Rom.CounterWire
import Rom.OrSetWire
import Rom.LwwRegister
import Rom.VersionVector

/-!
The wire formats of the replicated types and of version vectors. What the encoders
write is what the formats write (`GCounter.encodeEntries_eq` and its like), and the
decoders take from bytes what the formats read (`GCounter.merge_read` and its
like); they ignore what follows. The two halves of a two-way counter are read one
after the other, so its merge takes a complete first half also when the second is
cut off (`PnCounter.merge_read`).
-/
namespace Rom
open Std Format

/-! ### Counters -/

namespace GCounter

/-- The entry at the front of bytes. -/
def entryAt (p : Bytes) : GCounterEntry := ⟨readU16 p,readU64 (p.drop 2)⟩

theorem entryAt_encode (e : GCounterEntry) (rest : Bytes) : entryAt (encodeEntry e ++ rest) = e := by
  rw [entryAt,encodeEntry,List.append_assoc,readU16_write,drop_writeU16,readU64_write]

theorem encode_entryAt (p : Bytes) (long : 10 ≤ p.length) : encodeEntry (entryAt p) = p.take 10 := by
  rw [encodeEntry,entryAt,writeU16_read (by omega),writeU64_read (by rw [List.length_drop]; omega),← List.take_add]

def entryFormat : Format GCounterEntry := fixed 10 encodeEntry entryAt (fun _ => rfl) entryAt_encode encode_entryAt

/-- Entries behind their number. -/
def format : Format (List GCounterEntry) := counted number8 entryFormat

theorem encodeEntries_eq (l : List GCounterEntry) : encodeEntries l = format.write l := rfl

theorem fits_format (l : List GCounterEntry) : format.Fits l ↔ l.length < 2^8 := by
  show (l.length < 2^8 ∧ ∀ e ∈ l, True) ↔ _
  simp

theorem readEntries_eq (n : ℕ) (p : Bytes) : readEntries n p = records 10 entryAt n p := by
  induction n generalizing p with
  | zero => rfl
  | succ n ih =>
    rw [readEntries,records,ih]
    rfl

/-- What is read from bytes that are not empty. -/
theorem read_cons (b : UInt8) (data : Bytes) :
    format.read (b :: data) =
      if data.length < b.toNat * 10 then none else some (readEntries b.toNat data,data.drop (b.toNat * 10)) := by
  rw [readEntries_eq]
  exact readList_fixed b.toNat data

theorem merge_read (c : GCounter) (data : Bytes) :
    c.merge data = match format.read data with
      | none => (c,false)
      | some (l,_) => mergeEntries (c,false) l := by
  rw [merge_eq,carriedEntries]
  cases data with
  | nil => rfl
  | cons b data =>
    have number : byteAt (b :: data) 0 = b := rfl
    rw [read_cons,number,List.length_cons,entryWireSize,if_neg (by omega)]
    by_cases cut : data.length < b.toNat * 10
    · rw [if_pos (by omega),if_pos cut]
      rfl
    · rw [if_neg (by omega),if_neg cut]
      rfl

end GCounter

namespace PnCounter
open GCounter (mergeEntries)

/-- One half after the other. -/
def format : Format (List GCounterEntry × List GCounterEntry) := pair GCounter.format GCounter.format

theorem merge_read (c : PnCounter) (data : Bytes) :
    c.merge data = match GCounter.format.read data with
      | none => (c,false)
      | some (l,rest) =>
        if rest = [] then (c,false)
        else
          (⟨(mergeEntries (c.p,false) l).1,(c.n.merge rest).1⟩,
            (mergeEntries (c.p,false) l).2 || (c.n.merge rest).2) := by
  cases data with
  | nil => rfl
  | cons b data =>
    have number : byteAt (b :: data) 0 = b := rfl
    rw [merge,number,GCounter.read_cons,List.length_cons,GCounter.entryWireSize]
    by_cases cut : data.length < b.toNat * 10
    · rw [if_pos cut]
      split
      · rfl
      · rw [if_pos (by omega)]
    · rw [if_neg cut]
      dsimp only
      by_cases last : data.drop (b.toNat * 10) = []
      · have short : data.length ≤ b.toNat * 10 := List.drop_eq_nil_iff.mp last
        rw [if_pos last]
        split
        · rfl
        · rw [if_pos (by omega)]
      · have long : b.toNat * 10 < data.length := Nat.not_le.mp (fun short => last (List.drop_eq_nil_iff.mpr short))
        have read := GCounter.read_cons b data
        rw [if_neg cut] at read
        have own : 1 + b.toNat * 10 + (data.drop (b.toNat * 10)).length = (b :: data).length := by
          rw [List.length_drop,List.length_cons]
          omega
        obtain ⟨first,behind⟩ := read_own read own
        rw [if_neg last,if_neg (by omega),if_neg (by omega),behind,GCounter.merge_read c.p,first]

end PnCounter

/-! ### Observed-remove sets -/

namespace OrSet

/-- The tag at the front of bytes. -/
def tagAt (p : Bytes) : OrSetTag := ⟨readU16 p,readU32 (p.drop 2)⟩

theorem tagAt_encode (tag : OrSetTag) (rest : Bytes) : tagAt (encodeTag tag ++ rest) = tag := by
  rw [tagAt,encodeTag,List.append_assoc,readU16_write,drop_writeU16,readU32_write]

theorem encode_tagAt (p : Bytes) (long : 6 ≤ p.length) : encodeTag (tagAt p) = p.take 6 := by
  rw [encodeTag,tagAt,writeU16_read (by omega),writeU32_read (by rw [List.length_drop]; omega),← List.take_add]

def tagFormat : Format OrSetTag := fixed 6 encodeTag tagAt (fun _ => rfl) tagAt_encode encode_tagAt

/-- An element behind its length, then its tags behind their number. -/
def elementFormat : Format (Bytes × List OrSetTag) := pair (counted number16 byte) (counted number8 tagFormat)

/-- Elements behind their number, then tombstones behind theirs. -/
def format : Format (List (Bytes × List OrSetTag) × List OrSetTag) :=
  pair (counted number16 elementFormat) (counted number16 tagFormat)

def setOf (l : List OrSetTag) : TagSet := l.foldl (fun tags tag => tags.insert tag) ∅

/-- The tags in a set, one for each. -/
def tagged (e : Bytes × List OrSetTag) : Bytes × TagSet := (e.1,setOf e.2)

/-- What a decoded payload says. -/
def decodedOf (x : List (Bytes × List OrSetTag) × List OrSetTag) : Decoded :=
  ⟨(x.1.map tagged).foldl insertTags ∅,setOf x.2⟩

/-- The elements and tombstones that are written. -/
def listed (entries : EntryMap) (tombstones : TagSet) : List (Bytes × List OrSetTag) × List OrSetTag :=
  ((entries.toList.filter (fun e => !e.2.isEmpty)).map (fun e => (e.1,e.2.toList)),tombstones.toList)

theorem encodeEntry_eq (e : Bytes × TagSet) : encodeEntry e = elementFormat.write (e.1,e.2.toList) := by
  have bytes : e.1.flatMap (fun b => [b]) = e.1 := List.flatMap_singleton' e.1
  show _ = (writeU16 (UInt16.ofNat e.1.length) ++ e.1.flatMap (fun b => [b])) ++
    ([UInt8.ofNat e.2.toList.length] ++ e.2.toList.flatMap encodeTag)
  rw [encodeEntry,bytes,ExtTreeSet.length_toList,List.append_assoc]

theorem encodeEntries_eq (entries : EntryMap) (tombstones : TagSet) :
    encodeEntries entries tombstones = format.write (listed entries tombstones) := by
  show _ = (writeU16 (UInt16.ofNat (List.map _ _).length) ++ (List.map _ _).flatMap elementFormat.write) ++
    (writeU16 (UInt16.ofNat tombstones.toList.length) ++ tombstones.toList.flatMap encodeTag)
  have each : encodeEntry = fun e => elementFormat.write (e.1,e.2.toList) := funext encodeEntry_eq
  rw [encodeEntries,List.length_map,List.flatMap_map,ExtTreeSet.length_toList,each]
  simp only [List.append_assoc]

theorem decodeTags_eq (n : ℕ) (p : Bytes) (tags : TagSet) :
    decodeTags n p tags = ((records 6 tagAt n p).foldl (fun tags tag => tags.insert tag) tags,p.drop (n * 6)) := by
  induction n generalizing p tags with
  | zero => simp [decodeTags,records]
  | succ n ih =>
    rw [decodeTags,ih,records,List.foldl_cons,List.drop_drop]
    simp only [Prod.mk.injEq]
    refine ⟨rfl,?_⟩
    congr 1
    ring

/-- What is read of tags behind their number. -/
theorem readList_tags (n : ℕ) (p : Bytes) :
    tagFormat.readList n p = if p.length < n * 6 then none else some (records 6 tagAt n p,p.drop (n * 6)) :=
  readList_fixed n p

theorem decodeEntry_read (p : Bytes) : decodeEntry p = (elementFormat.read p).map (fun x => (tagged x.1,x.2)) := by
  rw [decodeEntry,elementFormat,read_pair,read_counted16,readList_byte]
  by_cases short : p.length < 2
  · rw [if_pos short,if_pos short]
    rfl
  · rw [if_neg short,if_neg short]
    dsimp only
    by_cases cut : (p.drop 2).length < (readU16 p).toNat
    · rw [if_pos cut,if_pos cut]
      rfl
    · rw [if_neg cut,if_neg cut]
      dsimp only
      rw [read_counted8]
      by_cases bare : ((p.drop 2).drop (readU16 p).toNat).length < 1
      · rw [if_pos bare,if_pos bare]
        rfl
      · rw [if_neg bare,if_neg bare,readList_tags]
        split
        · rfl
        · rw [decodeTags_eq]
          rfl

theorem decodeList_read (n : ℕ) (p : Bytes) (m : EntryMap) :
    decodeList n p m = (elementFormat.readList n p).map (fun x => ((x.1.map tagged).foldl insertTags m,x.2)) := by
  induction n generalizing p m with
  | zero => rfl
  | succ n ih =>
    rw [decodeList,readList,decodeEntry_read]
    cases elementFormat.read p with
    | none => rfl
    | some found =>
      obtain ⟨e,behind⟩ := found
      dsimp only [Option.map_some]
      rw [ih]
      cases elementFormat.readList n behind with
      | none => rfl
      | some found => rfl

theorem decodeEntries_read (data : Bytes) : decodeEntries data = (format.read data).map (fun x => decodedOf x.1) := by
  rw [decodeEntries,format,read_pair,read_counted16]
  by_cases short : data.length < 2
  · rw [if_pos short,if_pos short]
    rfl
  · rw [if_neg short,if_neg short,decodeList_read]
    cases elementFormat.readList (readU16 data).toNat (data.drop 2) with
    | none => rfl
    | some found =>
      obtain ⟨l,p⟩ := found
      dsimp only [Option.map_some]
      rw [read_counted16]
      by_cases bare : p.length < 2
      · rw [if_pos bare,if_pos bare]
        rfl
      · rw [if_neg bare,if_neg bare,readList_tags]
        split
        · rfl
        · rw [decodeTags_eq]
          rfl

theorem fits_element (e : Bytes × List OrSetTag) : elementFormat.Fits e ↔ e.1.length < 2^16 ∧ e.2.length < 2^8 := by
  show (e.1.length < 2^16 ∧ ∀ b ∈ e.1, True) ∧ (e.2.length < 2^8 ∧ ∀ tag ∈ e.2, True) ↔ _
  simp

/-- Elements that all have tags fit exactly within the limits of the numbers. -/
theorem fits_listed {entries : EntryMap} (trim : Trim entries) (tombstones : TagSet) :
    format.Fits (listed entries tombstones) ↔ Fits entries tombstones := by
  have live : entries.toList.filter (fun e => !e.2.isEmpty) = entries.toList := by
    rw [List.filter_eq_self]
    exact fun e listed => by rw [trim e listed]; rfl
  show (((entries.toList.filter (fun e => !e.2.isEmpty)).map (fun e => (e.1,e.2.toList))).length < 2^16 ∧
      ∀ e ∈ (entries.toList.filter (fun e => !e.2.isEmpty)).map (fun e => (e.1,e.2.toList)), elementFormat.Fits e) ∧
    (tombstones.toList.length < 2^16 ∧ ∀ tag ∈ tombstones.toList, True) ↔ _
  simp only [live,List.length_map,List.forall_mem_map,fits_element,ExtTreeSet.length_toList,implies_true,and_true]
  constructor
  · rintro ⟨⟨number,each⟩,tombs⟩
    exact ⟨fun e listed => (each e listed).1,fun e listed => (each e listed).2,by rwa [live],tombs⟩
  · rintro ⟨elem,tags,number,tombs⟩
    rw [live] at number
    exact ⟨⟨number,fun e listed => ⟨elem e listed,tags e listed⟩⟩,tombs⟩

end OrSet

/-! ### Registers and version vectors -/

namespace LwwRegister

/-- The stamp at the front of bytes. -/
def stampAt (p : Bytes) : UInt32 × UInt16 := (readU32 p,readU16 (p.drop 4))

def encodeStamp (stamp : UInt32 × UInt16) : Bytes := writeU32 stamp.1 ++ writeU16 stamp.2

theorem stampAt_encode (stamp : UInt32 × UInt16) (rest : Bytes) : stampAt (encodeStamp stamp ++ rest) = stamp := by
  rw [stampAt,encodeStamp,List.append_assoc,readU32_write,drop_writeU32,readU16_write]

theorem encode_stampAt (p : Bytes) (long : 6 ≤ p.length) : encodeStamp (stampAt p) = p.take 6 := by
  rw [encodeStamp,stampAt,writeU32_read (by omega),writeU16_read (by rw [List.length_drop]; omega),← List.take_add]

/-- The stamp; the value is all that follows. -/
def format : Format (UInt32 × UInt16) := fixed headerSize encodeStamp stampAt (fun _ => rfl) stampAt_encode encode_stampAt

theorem merge_read (r : LwwRegister) (data : Bytes) :
    r.merge data = match format.read data with
      | none => (r,false)
      | some ((ts,node),value) =>
        if r.incomingWins ts node then ({ r with timestamp := ts, nodeId := node, value := value },true)
        else (r,false) := by
  show _ = match (if data.length < headerSize then none else some (stampAt data,data.drop headerSize)) with
      | none => _
      | some ((ts,node),value) => _
  rw [merge]
  by_cases short : data.length < headerSize
  · rw [if_pos short,if_pos short]
  · rw [if_neg short,if_neg short]
    rfl

end LwwRegister

namespace VersionVector

/-- The entry at the front of bytes. -/
def entryAt (p : Bytes) : VersionEntry := ⟨readU16 p,readU32 (p.drop 2)⟩

theorem entryAt_encode (e : VersionEntry) (rest : Bytes) : entryAt (encodeEntry e ++ rest) = e := by
  rw [entryAt,encodeEntry,List.append_assoc,readU16_write,drop_writeU16,readU32_write]

theorem encode_entryAt (p : Bytes) (long : 6 ≤ p.length) : encodeEntry (entryAt p) = p.take 6 := by
  rw [encodeEntry,entryAt,writeU16_read (by omega),writeU32_read (by rw [List.length_drop]; omega),← List.take_add]

def entryFormat : Format VersionEntry := fixed 6 encodeEntry entryAt (fun _ => rfl) entryAt_encode encode_entryAt

/-- Entries behind their number. -/
def format : Format (List VersionEntry) := counted number8 entryFormat

theorem encode_eq (v : VersionVector) : v.encode = format.write v.entries := rfl

theorem fits_format (l : List VersionEntry) : format.Fits l ↔ l.length < 2^8 := by
  show (l.length < 2^8 ∧ ∀ e ∈ l, True) ↔ _
  simp

theorem decodeLoop_eq (n : ℕ) (p : Bytes) (l : List VersionEntry) : decodeLoop n p l = l ++ records 6 entryAt n p := by
  induction n generalizing p l with
  | zero => rw [decodeLoop,records,List.append_nil]
  | succ n ih =>
    rw [decodeLoop,ih,records,List.append_assoc]
    rfl

theorem decode_read (buf : Bytes) : decode buf = (format.read buf).map (fun x => ⟨x.1⟩) := by
  show _ = Option.map _ ((counted number8 entryFormat).read buf)
  rw [decode,read_counted8]
  by_cases short : buf.length < 1
  · rw [if_pos short,if_pos short]
    rfl
  · have read : entryFormat.readList (byteAt buf 0).toNat (buf.drop 1) = _ :=
      readList_fixed (byteAt buf 0).toNat (buf.drop 1)
    rw [if_neg short,if_neg short,read,List.length_drop]
    by_cases cut : buf.length < 1 + (byteAt buf 0).toNat * 6
    · rw [if_pos cut,if_pos (by omega)]
      rfl
    · rw [if_neg cut,if_neg (by omega),decodeLoop_eq]
      rfl

end VersionVector
end Rom
