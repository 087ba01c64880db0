import Rom.OrSet

/-!
What the deltas of an observed-remove set carry. An element's length and the
numbers of elements and tombstones travel in 16 bits, the number of an element's
tags in 8; a delta within these limits is read back as it was written
(`mem_carried_entries`, `carried_tombstones`). Sets without untagged elements are
equal when their elements have the same tags (`entries_ext`).
-/
namespace Rom.OrSet
open Std

/-- The numbers on the wire hold the lengths that are written into them. -/
structure Fits (entries : EntryMap) (tombstones : TagSet) : Prop where
  elem : ∀ e ∈ entries.toList, e.1.length < 2^16
  tags : ∀ e ∈ entries.toList, e.2.size < 2^8
  entries : (entries.toList.filter (fun e => !e.2.isEmpty)).length < 2^16
  tombstones : tombstones.size < 2^16

instance (entries : EntryMap) (tombstones : TagSet) : Decidable (Fits entries tombstones) :=
  decidable_of_iff
    ((∀ e ∈ entries.toList, e.1.length < 2^16) ∧ (∀ e ∈ entries.toList, e.2.size < 2^8) ∧
      (entries.toList.filter (fun e => !e.2.isEmpty)).length < 2^16 ∧ tombstones.size < 2^16)
    ⟨fun ⟨elem,tags,entries,tombstones⟩ => ⟨elem,tags,entries,tombstones⟩,
      fun fits => ⟨fits.elem,fits.tags,fits.entries,fits.tombstones⟩⟩

/-- What a merge takes from bytes; nothing from those it cannot read. -/
def carried (data : Bytes) : Decoded := (decodeEntries data).getD {}

theorem carried_of_read {data : Bytes} {incoming : Decoded} (read : decodeEntries data = some incoming) :
    carried data = incoming := by
  rw [carried,read]
  rfl

theorem merge_of_read {data : Bytes} {incoming : Decoded} (read : decodeEntries data = some incoming) (s : OrSet) :
    s.merge data = s.mergeDecoded incoming := by
  rw [merge,read]

/-- Bytes that cannot be read change nothing. -/
theorem merge_of_unread {data : Bytes} (unread : decodeEntries data = none) (s : OrSet) : s.merge data = (s,false) := by
  rw [merge,unread]

theorem tag_mem_merge_carried (s : OrSet) (data key : Bytes) (tag : OrSetTag) :
    tag ∈ tagsOf (s.merge data).1.entries key ↔
      (tag ∈ tagsOf s.entries key ∨ tag ∈ tagsOf (carried data).entries key) ∧ tag ∉ (carried data).tombstones := by
  rw [merge,carried]
  cases decodeEntries data with
  | none => simp
  | some incoming => exact tag_mem_merge s incoming key tag

theorem foldl_insert_toList (tags : TagSet) : tags.toList.foldl (fun tags tag => tags.insert tag) ∅ = tags := by
  apply ExtTreeSet.ext_mem
  intro tag
  rw [mem_foldl_insert,ExtTreeSet.mem_toList]
  simp

theorem decodeTags_encode (l : List OrSetTag) (tags : TagSet) (rest : Bytes) :
    decodeTags l.length (l.flatMap encodeTag ++ rest) tags = (l.foldl (fun tags tag => tags.insert tag) tags,rest) := by
  induction l generalizing tags with
  | nil => rfl
  | cons t l ih =>
    have first : readU32 ((writeU16 t.nodeId ++ (writeU32 t.sequence ++ (l.flatMap encodeTag ++ rest))).drop 2) =
        t.sequence := by
      rw [drop_writeU16,readU32_write]
    have after : (writeU16 t.nodeId ++ (writeU32 t.sequence ++ (l.flatMap encodeTag ++ rest))).drop 6 =
        l.flatMap encodeTag ++ rest := rfl
    simp only [List.flatMap_cons,encodeTag,List.append_assoc,List.length_cons,decodeTags,readU16_write,List.foldl_cons]
    rw [first,after]
    exact ih (tags.insert t)

theorem flatMap_encodeTag_length (l : List OrSetTag) : (l.flatMap encodeTag).length = l.length * 6 := by
  induction l with
  | nil => rfl
  | cons t l ih =>
    rw [List.flatMap_cons,List.length_append,ih,List.length_cons]
    simp only [encodeTag,List.length_append,writeU16_length,writeU32_length]
    omega

theorem decodeTags_toList (tags : TagSet) (rest : Bytes) :
    decodeTags tags.size (tags.toList.flatMap encodeTag ++ rest) ∅ = (tags,rest) := by
  rw [← ExtTreeSet.length_toList,decodeTags_encode,foldl_insert_toList]

theorem decodeEntry_encode (e : Bytes × TagSet) (rest : Bytes) (elem : e.1.length < 2^16) (tags : e.2.size < 2^8) :
    decodeEntry (encodeEntry e ++ rest) = some (e,rest) := by
  have elemLen : (UInt16.ofNat e.1.length).toNat = e.1.length := by
    rw [UInt16.toNat_ofNat',Nat.mod_eq_of_lt elem]
  have tagCount : (UInt8.ofNat e.2.size).toNat = e.2.size := by
    rw [UInt8.toNat_ofNat',Nat.mod_eq_of_lt tags]
  simp only [decodeEntry,encodeEntry,List.append_assoc,readU16_write,drop_writeU16,elemLen,List.take_left,List.drop_left,
    List.cons_append,List.nil_append,List.drop_succ_cons,List.drop_zero]
  rw [if_neg (writeU16_not_short _ _),if_neg (by simp),if_neg (by simp)]
  show (if _ < (UInt8.ofNat e.2.size).toNat * 6 then none else _) = _
  rw [tagCount,if_neg (by simp only [List.length_append,flatMap_encodeTag_length,ExtTreeSet.length_toList]; omega)]
  show some ((e.1,(decodeTags (UInt8.ofNat e.2.size).toNat _ ∅).1),(decodeTags (UInt8.ofNat e.2.size).toNat _ ∅).2) = _
  rw [tagCount,decodeTags_toList]

theorem decodeList_encode (l : List (Bytes × TagSet)) (m : EntryMap) (rest : Bytes)
    (elem : ∀ e ∈ l, e.1.length < 2^16) (tags : ∀ e ∈ l, e.2.size < 2^8) :
    decodeList l.length (l.flatMap encodeEntry ++ rest) m = some (l.foldl insertTags m,rest) := by
  induction l generalizing m with
  | nil => rfl
  | cons e l ih =>
    rw [List.flatMap_cons,List.append_assoc,List.length_cons,decodeList,
      decodeEntry_encode e _ (elem e (by simp)) (tags e (by simp))]
    exact ih (insertTags m e) (fun e member => elem e (by simp [member])) (fun e member => tags e (by simp [member]))

theorem decodeEntries_encode {entries : EntryMap} {tombstones : TagSet} (fits : Fits entries tombstones) :
    decodeEntries (encodeEntries entries tombstones) =
      some ⟨(entries.toList.filter (fun e => !e.2.isEmpty)).foldl insertTags ∅,tombstones⟩ := by
  have read := decodeList_encode (entries.toList.filter (fun e => !e.2.isEmpty)) ∅
    (writeU16 (UInt16.ofNat tombstones.size) ++ (tombstones.toList.flatMap encodeTag ++ []))
    (fun e member => fits.elem e (List.mem_filter.mp member).1)
    (fun e member => fits.tags e (List.mem_filter.mp member).1)
  have number : (UInt16.ofNat (entries.toList.filter (fun e => !e.2.isEmpty)).length).toNat =
      (entries.toList.filter (fun e => !e.2.isEmpty)).length := by
    rw [UInt16.toNat_ofNat',Nat.mod_eq_of_lt fits.entries]
  have tombCount : (UInt16.ofNat tombstones.size).toNat = tombstones.size := by
    rw [UInt16.toNat_ofNat',Nat.mod_eq_of_lt fits.tombstones]
  simp only [encodeEntries,decodeEntries,List.append_assoc,readU16_write,drop_writeU16,number]
  rw [List.append_nil] at read
  rw [if_neg (writeU16_not_short _ _),read]
  simp only [readU16_write,drop_writeU16,tombCount]
  rw [if_neg (writeU16_not_short _ _),if_neg (by simp only [flatMap_encodeTag_length,ExtTreeSet.length_toList]; omega)]
  rw [← List.append_nil (tombstones.toList.flatMap encodeTag),decodeTags_toList]

theorem mem_foldl_insertTags (l : List (Bytes × TagSet)) (m : EntryMap) (key : Bytes) (tag : OrSetTag) :
    tag ∈ tagsOf (l.foldl insertTags m) key ↔ tag ∈ tagsOf m key ∨ ∃ e ∈ l, e.1 = key ∧ tag ∈ e.2 := by
  induction l generalizing m with
  | nil => simp
  | cons e l ih =>
    have head : tag ∈ tagsOf (insertTags m e) key ↔ tag ∈ tagsOf m key ∨ e.1 = key ∧ tag ∈ e.2 := by
      rw [insertTags,tagsOf_insert]
      by_cases same : e.1 = key
      · rw [if_pos same,mem_foldl_insert,ExtTreeSet.mem_toList,same]
        simp
      · simp [same]
    rw [List.foldl_cons,ih,head,List.exists_mem_cons_iff]
    tauto

theorem carried_tombstones {entries : EntryMap} {tombstones : TagSet} (fits : Fits entries tombstones) :
    (carried (encodeEntries entries tombstones)).tombstones = tombstones := by
  rw [carried,decodeEntries_encode fits]
  rfl

/-- The elements of a delta within the limits carry the tags they were sent with. -/
theorem mem_carried_entries {entries : EntryMap} {tombstones : TagSet} (fits : Fits entries tombstones) (key : Bytes)
    (tag : OrSetTag) :
    tag ∈ tagsOf (carried (encodeEntries entries tombstones)).entries key ↔ tag ∈ tagsOf entries key := by
  rw [carried,decodeEntries_encode fits]
  have live : entries.toList.filter (fun e => !e.2.isEmpty) =
      (entries.filter (fun _ tags => !tags.isEmpty)).toList := by
    rw [ExtTreeMap.toList_filter]
  show tag ∈ tagsOf (List.foldl insertTags ∅ _) key ↔ _
  rw [mem_foldl_insertTags,tagsOf_empty,live,← mem_tagsOf_iff,mem_tagsOf_filter]
  simp

/-! ### Equal sets -/

/-- No element is listed without a tag. -/
def Trim (m : EntryMap) : Prop := ∀ e ∈ m.toList, e.2.isEmpty = false

theorem trim_iff (m : EntryMap) : Trim m ↔ ∀ (key : Bytes) (tags : TagSet), m[key]? = some tags → ∃ tag, tag ∈ tags := by
  have tagged : ∀ tags : TagSet, tags.isEmpty = false ↔ ∃ tag, tag ∈ tags := by
    intro tags
    rw [← Bool.not_eq_true,isEmpty_iff_forall]
    simp
  simp only [Trim,Prod.forall,ExtTreeMap.mem_toList_iff_getElem?_eq_some,tagged]

theorem entries_ext {m m' : EntryMap} (trim : Trim m) (trim' : Trim m')
    (same : ∀ key tag, tag ∈ tagsOf m key ↔ tag ∈ tagsOf m' key) : m = m' := by
  rw [trim_iff] at trim trim'
  apply ExtTreeMap.ext_getElem?
  intro key
  have here := same key
  rw [tagsOf_eq,tagsOf_eq] at here
  cases found : m[key]? with
  | none =>
    cases found' : m'[key]? with
    | none => rfl
    | some tags' =>
      obtain ⟨tag,member⟩ := trim' key tags' found'
      rw [found,found'] at here
      exact absurd ((here tag).mpr member) (by simp)
  | some tags =>
    cases found' : m'[key]? with
    | none =>
      obtain ⟨tag,member⟩ := trim key tags found
      rw [found,found'] at here
      exact absurd ((here tag).mp member) (by simp)
    | some tags' =>
      rw [found,found'] at here
      exact congrArg some (ExtTreeSet.ext_mem (fun tag => here tag))

theorem trim_mergeDecoded (s : OrSet) (incoming : Decoded) : Trim (s.mergeDecoded incoming).1.entries := by
  intro e listed
  have filtered : e ∈ (ExtTreeMap.filter (fun _ tags => !tags.isEmpty) _).toList := listed
  rw [ExtTreeMap.toList_filter,List.mem_filter] at filtered
  simpa using filtered.2

theorem trim_merge {s : OrSet} (trim : Trim s.entries) (data : Bytes) : Trim (s.merge data).1.entries := by
  rw [merge]
  cases decodeEntries data with
  | none => exact trim
  | some incoming => exact trim_mergeDecoded s incoming

theorem trim_empty : Trim ∅ := by
  rw [trim_iff]
  intro key tags found
  simp at found

theorem trim_insertTag {m : EntryMap} (trim : Trim m) (elem : Bytes) (tag : OrSetTag) : Trim (insertTag m elem tag) := by
  rw [trim_iff] at trim ⊢
  intro key tags found
  rw [insertTag,ExtTreeMap.getElem?_insert] at found
  split at found
  · cases found
    exact ⟨tag,by simp⟩
  · exact trim key tags found

theorem trim_add {s : OrSet} (trim : Trim s.entries) (elem : Bytes) : Trim (s.add elem).entries :=
  trim_insertTag trim elem s.nextTag

theorem trim_erase {m : EntryMap} (trim : Trim m) (elem : Bytes) : Trim (m.erase elem) := by
  rw [trim_iff] at trim ⊢
  intro key tags found
  rw [ExtTreeMap.getElem?_erase] at found
  split at found
  · cases found
  · exact trim key tags found

/-- All tags that come with some elements. -/
def allTags (m : EntryMap) : List OrSetTag := m.toList.flatMap (fun e => e.2.toList)

theorem mem_allTags (m : EntryMap) (tag : OrSetTag) : tag ∈ allTags m ↔ ∃ key, tag ∈ tagsOf m key := by
  simp only [allTags,List.mem_flatMap,ExtTreeSet.mem_toList,mem_tagsOf_iff]
  constructor
  · rintro ⟨e,listed,member⟩
    exact ⟨e.1,e,listed,rfl,member⟩
  · rintro ⟨key,e,listed,_,member⟩
    exact ⟨e,listed,member⟩

theorem maxSeq_le_iff (nodeId : UInt16) (seq bound : UInt32) (tags : List OrSetTag) :
    maxSeq nodeId seq tags ≤ bound ↔ seq ≤ bound ∧ ∀ tag ∈ tags, tag.nodeId = nodeId → tag.sequence ≤ bound := by
  induction tags generalizing seq with
  | nil => simp [maxSeq]
  | cons t tags ih =>
    rw [List.forall_mem_cons]
    show maxSeq nodeId (if t.nodeId = nodeId ∧ t.sequence > seq then t.sequence else seq) tags ≤ bound ↔ _
    rw [ih]
    by_cases greater : t.nodeId = nodeId ∧ t.sequence > seq
    · rw [if_pos greater]
      constructor
      · rintro ⟨le,rest⟩
        exact ⟨UInt32.le_trans (UInt32.le_of_lt greater.2) le,fun _ => le,rest⟩
      · rintro ⟨_,le,rest⟩
        exact ⟨le greater.1,rest⟩
    · rw [if_neg greater]
      constructor
      · rintro ⟨le,rest⟩
        refine ⟨le,fun own => UInt32.le_trans (UInt32.not_lt.mp fun lt => greater ⟨own,lt⟩) le,rest⟩
      · rintro ⟨le,_,rest⟩
        exact ⟨le,rest⟩

theorem maxSeq_cases (nodeId : UInt16) (seq : UInt32) (tags : List OrSetTag) :
    maxSeq nodeId seq tags = seq ∨ ∃ tag ∈ tags, tag.nodeId = nodeId ∧ maxSeq nodeId seq tags = tag.sequence := by
  induction tags generalizing seq with
  | nil => exact .inl rfl
  | cons t tags ih =>
    rw [List.exists_mem_cons_iff]
    by_cases greater : t.nodeId = nodeId ∧ t.sequence > seq
    · have first : maxSeq nodeId seq (t :: tags) = maxSeq nodeId t.sequence tags :=
        congrArg (maxSeq nodeId · tags) (if_pos greater)
      rw [first]
      rcases ih t.sequence with same | later
      · exact .inr (.inl ⟨greater.1,same⟩)
      · exact .inr (.inr later)
    · have first : maxSeq nodeId seq (t :: tags) = maxSeq nodeId seq tags :=
        congrArg (maxSeq nodeId · tags) (if_neg greater)
      rw [first]
      rcases ih seq with same | later
      · exact .inl same
      · exact .inr (.inr later)

/-- A merge leaves everything but the elements and the tag counter as it is. -/
theorem mergeDecoded_eq (s : OrSet) (incoming : Decoded) :
    (s.mergeDecoded incoming).1 =
      { s with
        entries := (s.mergeDecoded incoming).1.entries
        seq := maxSeq s.nodeId s.seq (allTags incoming.entries) } := rfl

end Rom.OrSet
