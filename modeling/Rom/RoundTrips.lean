import Rom.WireFormats
import Rom.Recovery

/-!
Round trips. What an observed-remove set writes within the limits of its number
fields is read back as it was, no byte of it is superfluous, and its snapshot brings
an empty set to the same elements (`set_round_trip`). A recovery request is read back
in whatever order its map was iterated, and the bytes of a request that is accepted
with different paths are what is written of them in the order read
(`request_round_trip`).
-/
namespace Rom

/-! ### Observed-remove sets -/

namespace OrSet
open Std Format

/-- Not too many elements and tombstones, and elements that are not too long and have
    some tags, but not too many. -/
structure Bounded (entries : EntryMap) (tombstones : TagSet) : Prop where
  elements : entries.size ≤ 65535
  each : ∀ e ∈ entries.toList, e.1.length ≤ 65535 ∧ e.2.isEmpty = false ∧ e.2.size ≤ 255
  tombstones : tombstones.size ≤ 65535

theorem trim_of_bounded {entries : EntryMap} {tombstones : TagSet} (bounded : Bounded entries tombstones) : Trim entries :=
  fun e listed => (bounded.each e listed).2.1

theorem fits_of_bounded {entries : EntryMap} {tombstones : TagSet} (bounded : Bounded entries tombstones) :
    Fits entries tombstones where
  elem e listed := Nat.lt_succ_of_le (bounded.each e listed).1
  tags e listed := Nat.lt_succ_of_le (bounded.each e listed).2.2
  entries := by
    have fewer := List.length_filter_le (fun e : Bytes × TagSet => !e.2.isEmpty) entries.toList
    have number := bounded.elements
    rw [← ExtTreeMap.length_toList] at number
    omega
  tombstones := Nat.lt_succ_of_le bounded.tombstones

theorem trim_insertTags {m : EntryMap} (trim : Trim m) {e : Bytes × TagSet} (tagged : e.2.isEmpty = false) :
    Trim (insertTags m e) := by
  rw [trim_iff] at trim ⊢
  intro key tags found
  rw [insertTags,ExtTreeMap.getElem?_insert] at found
  split at found
  · cases found
    have some : ∃ tag, tag ∈ e.2 := by
      by_contra none
      rw [(isEmpty_iff_forall e.2).mpr (not_exists.mp none)] at tagged
      cases tagged
    obtain ⟨tag,member⟩ := some
    exact ⟨tag,(mem_foldl_insert _ _ tag).mpr (.inr (ExtTreeSet.mem_toList.mpr member))⟩
  · exact trim key tags found

theorem trim_foldl_insertTags {l : List (Bytes × TagSet)} (tagged : ∀ e ∈ l, e.2.isEmpty = false) {m : EntryMap}
    (trim : Trim m) : Trim (l.foldl insertTags m) := by
  induction l generalizing m with
  | nil => exact trim
  | cons e l ih =>
    rw [List.forall_mem_cons] at tagged
    exact ih tagged.2 (trim_insertTags trim tagged.1)

/-- Inserting the elements of a map one by one builds it again. -/
theorem foldl_insertTags_toList {entries : EntryMap} (trim : Trim entries) :
    entries.toList.foldl insertTags ∅ = entries := by
  refine entries_ext (trim_foldl_insertTags trim trim_empty) trim fun key tag => ?_
  rw [mem_foldl_insertTags,tagsOf_empty,← mem_tagsOf_iff]
  simp

/-- What is written within the limits is read back as it was. -/
theorem decodeEntries_encode_self {entries : EntryMap} {tombstones : TagSet} (bounded : Bounded entries tombstones) :
    decodeEntries (encodeEntries entries tombstones) = some ⟨entries,tombstones⟩ := by
  have trim := trim_of_bounded bounded
  have live : entries.toList.filter (fun e => !e.2.isEmpty) = entries.toList := by
    rw [List.filter_eq_self]
    exact fun e listed => by rw [trim e listed]; rfl
  rw [decodeEntries_encode (fits_of_bounded bounded),live,foldl_insertTags_toList trim]

/-- All bytes that are written are read, and none of them can be missing. -/
theorem decodeEntries_consumes {entries : EntryMap} {tombstones : TagSet} (bounded : Bounded entries tombstones) :
    format.read (encodeEntries entries tombstones) = some (listed entries tombstones,[]) ∧
      ∀ n < (encodeEntries entries tombstones).length,
        decodeEntries ((encodeEntries entries tombstones).take n) = none := by
  have fits := (fits_listed (trim_of_bounded bounded) tombstones).mpr (fits_of_bounded bounded)
  rw [encodeEntries_eq]
  refine ⟨(format.read_write_iff _).mpr fits,fun n short => ?_⟩
  rw [decodeEntries_read,read_take fits short]
  rfl

/-- A snapshot brings a set without elements to the elements of the other. -/
theorem merge_snapshot_empty {s e : OrSet} (bounded : Bounded s.entries ∅) (empty : e.entries = ∅) :
    (e.merge s.snapshot).1.entries = s.entries := by
  have trim : Trim e.entries := by
    rw [empty]
    exact trim_empty
  refine entries_ext (trim_merge trim s.snapshot) (trim_of_bounded bounded) fun key tag => ?_
  rw [tag_mem_merge_carried,snapshot,mem_carried_entries (fits_of_bounded bounded),
    carried_tombstones (fits_of_bounded bounded),
    empty,tagsOf_empty]
  simp

/-- Elements with tags and tombstones within the limits are read back as they were
    written, from all of the bytes and from no fewer, and a snapshot of the elements
    brings an empty set to them. -/
theorem set_round_trip {entries : EntryMap} {tombstones : TagSet} (bounded : Bounded entries tombstones) :
    decodeEntries (encodeEntries entries tombstones) = some ⟨entries,tombstones⟩ ∧
      format.read (encodeEntries entries tombstones) = some (listed entries tombstones,[]) ∧
      (∀ n < (encodeEntries entries tombstones).length, decodeEntries ((encodeEntries entries tombstones).take n) = none) ∧
      ∀ s e : OrSet, s.entries = entries → e.entries = ∅ → (e.merge s.snapshot).1.entries = entries := by
  obtain ⟨whole,cut⟩ := decodeEntries_consumes bounded
  refine ⟨decodeEntries_encode_self bounded,whole,cut,?_⟩
  rintro s e rfl empty
  exact merge_snapshot_empty ⟨bounded.elements,bounded.each,by decide⟩ empty

/-- An element with tags of two nodes, the empty element, and two tombstones, one of
    them of a tag that is there. -/
def twoElements : EntryMap := insertTag (insertTag (insertTag ∅ [7,8] ⟨1,1⟩) [7,8] ⟨2,300⟩) [] ⟨1,2⟩
def twoTombstones : TagSet := (ExtTreeSet.insert ∅ ⟨2,300⟩).insert ⟨65535,5⟩

theorem set_round_trip_two :
    Bounded twoElements twoTombstones ∧
      decodeEntries (encodeEntries twoElements twoTombstones) = some ⟨twoElements,twoTombstones⟩ := by
  have bounded : Bounded twoElements twoTombstones := ⟨by decide +kernel,by decide +kernel,by decide +kernel⟩
  exact ⟨bounded,(set_round_trip bounded).1⟩

end OrSet

/-! ### Recovery requests -/

namespace RecoveryRequest
open Std Format

/-- A path hash. -/
def hashFormat : Format UInt32 :=
  fixed 4 writeU32 readU32 (fun _ => rfl) (fun h rest => readU32_write h rest) (fun _ long => writeU32_read long)

def vectorFormat : Format VersionVector :=
  VersionVector.format.through VersionVector.mk VersionVector.entries (fun _ => rfl) (fun _ => rfl)

/-- A path hash, then its version. -/
def pathFormat : Format (UInt32 × VersionVector) := pair hashFormat vectorFormat

/-- Paths behind their number. -/
def format : Format (List (UInt32 × VersionVector)) := counted number16 pathFormat

theorem fits_format (l : List (UInt32 × VersionVector)) :
    format.Fits l ↔ l.length < 2^16 ∧ ∀ e ∈ l, e.2.entries.length < 2^8 := by
  show (l.length < 2^16 ∧ ∀ e ∈ l, True ∧ VersionVector.format.Fits e.2.entries) ↔ _
  simp only [VersionVector.fits_format,true_and]

/-- A version is read by looking at the number of its entries first. -/
theorem read_vector (p : Bytes) :
    vectorFormat.read p =
      if p.length ≤ 0 then none
      else if p.length < 1 + (byteAt p 0).toNat * 6 then none
      else (VersionVector.decode (p.take (1 + (byteAt p 0).toNat * 6))).map
        (fun vv => (vv,p.drop (1 + (byteAt p 0).toNat * 6))) := by
  have read : VersionVector.format.read p =
      if p.length < 1 then none
      else if (p.drop 1).length < (byteAt p 0).toNat * 6 then none
      else some (records 6 VersionVector.entryAt (byteAt p 0).toNat (p.drop 1),
        (p.drop 1).drop ((byteAt p 0).toNat * 6)) := by
    rw [VersionVector.format,read_counted8]
    exact if_congr Iff.rfl rfl (readList_fixed _ _)
  show Option.map _ (VersionVector.format.read p) = _
  by_cases bare : p.length ≤ 0
  · rw [if_pos bare,read,if_pos (by omega)]
    rfl
  · rw [if_neg (by omega : ¬ p.length < 1)] at read
    rw [if_neg bare]
    by_cases cut : p.length < 1 + (byteAt p 0).toNat * 6
    · rw [if_pos cut,read,if_pos (by rw [List.length_drop]; omega)]
      rfl
    · rw [if_neg (by rw [List.length_drop]; omega)] at read
      have own : 1 + (byteAt p 0).toNat * 6 + ((p.drop 1).drop ((byteAt p 0).toNat * 6)).length = p.length := by
        simp only [List.length_drop]
        omega
      obtain ⟨first,behind⟩ := read_own read own
      rw [if_neg cut,read,VersionVector.decode_read,first,behind]
      rfl

theorem read_path (p : Bytes) :
    pathFormat.read p =
      if p.length < 4 then none else (vectorFormat.read (p.drop 4)).map (fun x => ((readU32 p,x.1),x.2)) := by
  rw [pathFormat,read_pair]
  have hash : hashFormat.read p = if p.length < 4 then none else some (readU32 p,p.drop 4) := rfl
  rw [hash]
  by_cases short : p.length < 4
  · rw [if_pos short,if_pos short]
  · rw [if_neg short,if_neg short]
    dsimp only
    cases vectorFormat.read (p.drop 4) with
    | none => rfl
    | some found => rfl

def insertAll (m : ExtTreeMap UInt32 VersionVector) (l : List (UInt32 × VersionVector)) : ExtTreeMap UInt32 VersionVector :=
  l.foldl (fun m e => m.insert e.1 e.2) m

/-- One path is read as its format reads it. -/
theorem decodeLoop_succ (n : ℕ) (p : Bytes) (out : RecoveryRequest) :
    pathFormat.read p = none ∧ decodeLoop (n+1) p out = (out,false) ∨
      ∃ e rest, pathFormat.read p = some (e,rest) ∧
        decodeLoop (n+1) p out = decodeLoop n rest ⟨out.knownVersions.insert e.1 e.2⟩ := by
  rw [read_path,read_vector,decodeLoop]
  by_cases short : p.length < 4
  · rw [if_pos short,if_pos short]
    exact .inl ⟨rfl,rfl⟩
  · rw [if_neg short,if_neg short]
    dsimp only
    by_cases bare : (p.drop 4).length ≤ 0
    · rw [if_pos bare,if_pos bare]
      exact .inl ⟨rfl,rfl⟩
    · rw [if_neg bare,if_neg bare]
      by_cases cut : (p.drop 4).length < 1 + (byteAt (p.drop 4) 0).toNat * 6
      · rw [if_pos cut,if_pos cut]
        exact .inl ⟨rfl,rfl⟩
      · rw [if_neg cut,if_neg cut]
        cases VersionVector.decode ((p.drop 4).take (1 + (byteAt (p.drop 4) 0).toNat * 6)) with
        | none => exact .inl ⟨rfl,rfl⟩
        | some vv => exact .inr ⟨_,_,rfl,rfl⟩

/-- The paths of a request are read as their format reads them, and are put into the
    map in the order read. -/
theorem decodeLoop_read (n : ℕ) (p : Bytes) (out : RecoveryRequest) :
    pathFormat.readList n p = none ∧ (decodeLoop n p out).2 = false ∨
      ∃ paths rest, pathFormat.readList n p = some (paths,rest) ∧
        decodeLoop n p out = (⟨insertAll out.knownVersions paths⟩,true) := by
  induction n generalizing p out with
  | zero => exact .inr ⟨[],p,rfl,rfl⟩
  | succ n ih =>
    rw [readList]
    rcases decodeLoop_succ n p out with ⟨refused,loop⟩ | ⟨e,behind,read,loop⟩
    · rw [refused,loop]
      exact .inl ⟨rfl,rfl⟩
    · rw [read,loop]
      dsimp only
      rcases ih behind ⟨out.knownVersions.insert e.1 e.2⟩ with ⟨none,last⟩ | ⟨paths,rest,some,last⟩
      · rw [none]
        exact .inl ⟨rfl,last⟩
      · rw [some]
        exact .inr ⟨e :: paths,rest,rfl,last⟩

theorem decode_read (data : Bytes) (out : RecoveryRequest) :
    format.read data = none ∧ (decode data out).2 = false ∨
      ∃ paths rest, format.read data = some (paths,rest) ∧ decode data out = (⟨insertAll ∅ paths⟩,true) := by
  rw [format,read_counted16,decode]
  by_cases short : data.length < 2
  · rw [if_pos short,if_pos short]
    exact .inl ⟨rfl,rfl⟩
  · rw [if_neg short,if_neg short]
    exact decodeLoop_read _ _ _

/-! ### Maps from lists -/

section
variable {l : List (UInt32 × VersionVector)}

theorem getElem_insertAll (distinct : (l.map Prod.fst).Nodup) (m : ExtTreeMap UInt32 VersionVector) (h : UInt32)
    (vv : VersionVector) :
    (insertAll m l)[h]? = some vv ↔ (h,vv) ∈ l ∨ h ∉ l.map Prod.fst ∧ m[h]? = some vv := by
  induction l generalizing m with
  | nil => simp [insertAll]
  | cons e l ih =>
    obtain ⟨hash,version⟩ := e
    obtain ⟨absent,rest⟩ := List.nodup_cons.mp distinct
    have first : insertAll m ((hash,version) :: l) = insertAll (m.insert hash version) l := rfl
    rw [first,ih rest,ExtTreeMap.getElem?_insert,List.map_cons,List.mem_cons,List.mem_cons,not_or]
    simp only [LawfulEqCmp.compare_eq_iff_eq]
    by_cases same : hash = h
    · subst same
      simp only [absent,not_false_eq_true,if_true,Option.some.injEq,true_and,Prod.mk.injEq,not_true_eq_false,false_and,
        or_false]
      rw [or_comm,eq_comm]
    · have other : ¬ h = hash := fun back => same back.symm
      simp only [same,if_false,Prod.mk.injEq,other,false_and,false_or,not_false_eq_true,true_and]

theorem getElem_insertAll_empty (distinct : (l.map Prod.fst).Nodup) (h : UInt32) (vv : VersionVector) :
    (insertAll ∅ l)[h]? = some vv ↔ (h,vv) ∈ l := by
  rw [getElem_insertAll distinct,ExtTreeMap.getElem?_empty]
  simp

theorem nodup_hashes (m : ExtTreeMap UInt32 VersionVector) : (m.toList.map Prod.fst).Nodup := by
  rw [ExtTreeMap.map_fst_toList_eq_keys]
  exact ExtTreeMap.nodup_keys

/-- Paths that are all different become the map that has them. -/
theorem perm_insertAll (distinct : (l.map Prod.fst).Nodup) : l.Perm (insertAll ∅ l).toList := by
  rw [List.perm_ext_iff_of_nodup distinct.of_map (nodup_hashes _).of_map]
  rintro ⟨h,vv⟩
  rw [ExtTreeMap.mem_toList_iff_getElem?_eq_some,getElem_insertAll_empty distinct]

/-- A map is built again from its paths in any order. -/
theorem insertAll_of_perm {m : ExtTreeMap UInt32 VersionVector} (perm : l.Perm m.toList) : insertAll ∅ l = m := by
  have distinct : (l.map Prod.fst).Nodup := (perm.map Prod.fst).nodup_iff.mpr (nodup_hashes m)
  apply ExtTreeMap.ext_getElem?
  intro h
  ext vv
  rw [getElem_insertAll_empty distinct,perm.mem_iff,ExtTreeMap.mem_toList_iff_getElem?_eq_some]

/-- What is written of as many paths as the request has is what the format writes. -/
theorem encode_eq {r : RecoveryRequest} (perm : l.Perm r.knownVersions.toList) : r.encode l = format.write l := by
  have length : l.length = r.knownVersions.size := by rw [perm.length_eq,ExtTreeMap.length_toList]
  show _ = writeU16 (UInt16.ofNat l.length) ++ l.flatMap pathFormat.write
  rw [encode,length]
  rfl

end

/-- The paths of bytes in the order in which they are read. -/
def pathsRead (data : Bytes) : List (UInt32 × VersionVector) := ((format.read data).map Prod.fst).getD []

/-- A request within the limits is read back, in whatever order its map is iterated;
    and where the paths of accepted bytes are different, they are an order of the map
    that is read, in which it is written as the bytes that were read. -/
theorem request_round_trip :
    (∀ (r out : RecoveryRequest) (order : List (UInt32 × VersionVector)), r.knownVersions.size ≤ 65535 →
      (∀ e ∈ r.knownVersions.toList, e.2.entries.length ≤ 255) → order.Perm r.knownVersions.toList →
      decode (r.encode order) out = (r,true)) ∧
    ∀ (data : Bytes) (out : RecoveryRequest), (decode data out).2 = true → ((pathsRead data).map Prod.fst).Nodup →
      (pathsRead data).Perm (decode data out).1.knownVersions.toList ∧
        ∃ rest, format.read data = some (pathsRead data,rest) ∧
          (decode data out).1.encode (pathsRead data) ++ rest = data := by
  constructor
  · intro r out order few short perm
    have fits : format.Fits order := by
      rw [fits_format,perm.length_eq,ExtTreeMap.length_toList]
      exact ⟨Nat.lt_succ_of_le few,fun e member => Nat.lt_succ_of_le (short e (perm.mem_iff.mp member))⟩
    rw [encode_eq perm]
    have written := (format.read_write_iff order).mpr fits
    rcases decode_read (format.write order) out with ⟨refused,_⟩ | ⟨paths,rest,read,decoded⟩
    · rw [written] at refused
      cases refused
    · rw [written] at read
      cases read
      rw [decoded,insertAll_of_perm perm]
  · intro data out accepted distinct
    rcases decode_read data out with ⟨_,refused⟩ | ⟨paths,rest,read,decoded⟩
    · rw [accepted] at refused
      cases refused
    · have same : pathsRead data = paths := by
        rw [pathsRead,read]
        rfl
      rw [same] at distinct ⊢
      have perm : paths.Perm (decode data out).1.knownVersions.toList := by
        rw [decoded]
        exact perm_insertAll distinct
      refine ⟨perm,rest,read,?_⟩
      rw [encode_eq perm]
      exact (format.of_read data paths rest read).2.symm

/-- Two paths, of which the one with the larger hash is written first. -/
theorem request_round_trip_two :
    decode (encode ⟨insertAll ∅ [(9,⟨[⟨1,4⟩]⟩),(3,{})]⟩ [(9,⟨[⟨1,4⟩]⟩),(3,{})]) {} =
      (⟨insertAll ∅ [(9,⟨[⟨1,4⟩]⟩),(3,{})]⟩,true) :=
  request_round_trip.1 _ _ _ (by decide +kernel) (by decide +kernel) (perm_insertAll (by decide))

end RecoveryRequest
end Rom
