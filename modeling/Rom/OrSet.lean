import Rom.Bytes
import Std.Data.ExtTreeMap
import Std.Data.ExtTreeSet

/-!
The observed-remove set (`or_set.h`, `or_set.cpp`). Each add tags its element
with a tag of the adding node; a remove takes the element's visible tags out and
sends them as tombstones; an element is in the set while it has a tag. Maps and
sets of the source are ordered trees here too, so iteration is in key order.
`tag_mem_merge` says which tags an element has after a merge.
-/
namespace Rom
open Std

structure OrSetTag where
  nodeId : UInt16
  sequence : UInt32
  deriving DecidableEq, Repr

instance : Ord OrSetTag := ⟨compareLex (compareOn OrSetTag.nodeId) (compareOn OrSetTag.sequence)⟩
instance : TransOrd OrSetTag :=
  inferInstanceAs (TransCmp (compareLex (compareOn OrSetTag.nodeId) (compareOn OrSetTag.sequence)))
instance : LawfulEqOrd OrSetTag where
  compare_self := ReflCmp.compare_self
  eq_of_compare := by
    rintro ⟨node,seq⟩ ⟨node',seq'⟩ same
    have both : (compare node node').then (compare seq seq') = .eq := same
    rw [Ordering.then_eq_eq] at both
    rw [LawfulEqOrd.eq_of_compare both.1,LawfulEqOrd.eq_of_compare both.2]

/-- `std::set<OrSetTag>`. -/
abbrev TagSet := ExtTreeSet OrSetTag
/-- `std::map<ElemKey, std::set<OrSetTag>>`. -/
abbrev EntryMap := ExtTreeMap Bytes TagSet

/-- The tags of an element; none when the map has no entry for it. -/
def tagsOf (m : EntryMap) (key : Bytes) : TagSet := m.getD key ∅

/-- `m[key].insert(tag)`. -/
def insertTag (m : EntryMap) (key : Bytes) (tag : OrSetTag) : EntryMap := m.insert key ((tagsOf m key).insert tag)

theorem tagsOf_insert (m : EntryMap) (key key' : Bytes) (tags : TagSet) :
    tagsOf (m.insert key tags) key' = if key = key' then tags else tagsOf m key' := by
  simp [tagsOf,ExtTreeMap.getD_insert]

theorem tagsOf_erase (m : EntryMap) (key key' : Bytes) :
    tagsOf (m.erase key) key' = if key = key' then ∅ else tagsOf m key' := by
  simp [tagsOf,ExtTreeMap.getD_erase]

theorem tagsOf_eq (m : EntryMap) (key : Bytes) : tagsOf m key = m[key]?.getD ∅ := ExtTreeMap.getD_eq_getD_getElem?

@[simp] theorem tagsOf_empty (key : Bytes) : tagsOf ∅ key = ∅ := by simp [tagsOf]

theorem mem_insertTag (m : EntryMap) (key key' : Bytes) (tag tag' : OrSetTag) :
    tag' ∈ tagsOf (insertTag m key tag) key' ↔ (key = key' ∧ tag = tag') ∨ tag' ∈ tagsOf m key' := by
  rw [insertTag,tagsOf_insert]
  by_cases same : key = key'
  · subst same; simp [ExtTreeSet.mem_insert]
  · simp [same]

/-- The tags of an element are those of its entry in the list of the map. -/
theorem mem_tagsOf_iff (m : EntryMap) (key : Bytes) (tag : OrSetTag) :
    tag ∈ tagsOf m key ↔ ∃ e ∈ m.toList, e.1 = key ∧ tag ∈ e.2 := by
  rw [tagsOf_eq]
  constructor
  · intro member
    cases found : m[key]? with
    | none => simp [found] at member
    | some tags => exact ⟨(key,tags),ExtTreeMap.mem_toList_iff_getElem?_eq_some.mpr found,rfl,by simpa [found] using member⟩
  · rintro ⟨⟨key',tags⟩,listed,rfl,member⟩
    rw [ExtTreeMap.mem_toList_iff_getElem?_eq_some.mp listed]
    exact member

/-- Inserting the tags of a list one by one. -/
theorem mem_foldl_insert (l : List OrSetTag) (tags : TagSet) (tag : OrSetTag) :
    tag ∈ l.foldl (fun tags tag => tags.insert tag) tags ↔ tag ∈ tags ∨ tag ∈ l := by
  induction l generalizing tags with
  | nil => simp
  | cons t l ih =>
    rw [List.foldl_cons,ih,ExtTreeSet.mem_insert,List.mem_cons,LawfulEqCmp.compare_eq_iff_eq,eq_comm,or_assoc,
      or_left_comm]

theorem isEmpty_iff_forall (tags : TagSet) : tags.isEmpty = true ↔ ∀ tag, tag ∉ tags := by
  rw [← ExtTreeSet.isEmpty_toList,List.isEmpty_iff,List.eq_nil_iff_forall_not_mem]
  simp only [ExtTreeSet.mem_toList]

structure OrSet where
  nodeId : UInt16 := 0
  seq : UInt32 := 0
  entries : EntryMap := ∅
  dirty : Bool := false
  pendingAdds : EntryMap := ∅
  pendingRemoves : TagSet := ∅

/-- What a delta or a snapshot says. -/
structure Decoded where
  entries : EntryMap := ∅
  tombstones : TagSet := ∅

namespace OrSet

def new (nodeId : UInt16) : OrSet := { nodeId := nodeId }

def nextTag (s : OrSet) : OrSetTag := ⟨s.nodeId,s.seq + 1⟩

def add (s : OrSet) (elem : Bytes) : OrSet :=
  { s with
    seq := s.seq + 1
    entries := insertTag s.entries elem s.nextTag
    pendingAdds := insertTag s.pendingAdds elem s.nextTag
    dirty := true }

/-- The set after a remove, and whether the element was there. -/
def remove (s : OrSet) (elem : Bytes) : OrSet × Bool :=
  match s.entries[elem]? with
  | none => (s,false)
  | some tags =>
    if tags.isEmpty then (s,false)
    else
      ({ s with
          pendingRemoves := tags.toList.foldl (fun removes tag => removes.insert tag) s.pendingRemoves
          entries := s.entries.erase elem
          dirty := true },true)

def contains (s : OrSet) (elem : Bytes) : Bool :=
  match s.entries[elem]? with
  | none => false
  | some tags => !tags.isEmpty

def elements (s : OrSet) : List Bytes := (s.entries.toList.filter (fun e => !e.2.isEmpty)).map Prod.fst

def size (s : OrSet) : Nat := (s.entries.toList.filter (fun e => !e.2.isEmpty)).length

/-! ### Wire format -/

def encodeTag (tag : OrSetTag) : Bytes := writeU16 tag.nodeId ++ writeU32 tag.sequence

/-- An element with its length, then its tags with their number. -/
def encodeEntry (e : Bytes × TagSet) : Bytes :=
  writeU16 (UInt16.ofNat e.1.length) ++ e.1 ++ [UInt8.ofNat e.2.size] ++ e.2.toList.flatMap encodeTag

def encodeEntries (entries : EntryMap) (tombstones : TagSet) : Bytes :=
  let live := entries.toList.filter (fun e => !e.2.isEmpty)
  writeU16 (UInt16.ofNat live.length) ++ live.flatMap encodeEntry ++
    writeU16 (UInt16.ofNat tombstones.size) ++ tombstones.toList.flatMap encodeTag

/-- Reads `n` tags into a set; the caller has checked that they are there. -/
def decodeTags : Nat → Bytes → TagSet → TagSet × Bytes
  | 0, p, tags => (tags,p)
  | n+1, p, tags => decodeTags n (p.drop 6) (tags.insert ⟨readU16 p,readU32 (p.drop 2)⟩)

/-- Reads one element with its tags. -/
def decodeEntry (p : Bytes) : Option ((Bytes × TagSet) × Bytes) :=
  if p.length < 2 then none
  else
    let elemLen := (readU16 p).toNat
    let p := p.drop 2
    if p.length < elemLen then none
    else
      let key := p.take elemLen
      let p := p.drop elemLen
      if p.length < 1 then none
      else
        let tagCount := (byteAt p 0).toNat
        let p := p.drop 1
        if p.length < tagCount * 6 then none
        else
          let (tags,p) := decodeTags tagCount p ∅
          some ((key,tags),p)

/-- `entries[key].insert(tags.begin(), tags.end())`. -/
def insertTags (m : EntryMap) (e : Bytes × TagSet) : EntryMap :=
  m.insert e.1 (e.2.toList.foldl (fun tags tag => tags.insert tag) (tagsOf m e.1))

/-- Reads `n` elements with their tags. -/
def decodeList : Nat → Bytes → EntryMap → Option (EntryMap × Bytes)
  | 0, p, m => some (m,p)
  | n+1, p, m =>
    match decodeEntry p with
    | none => none
    | some (e,p) => decodeList n p (insertTags m e)

def decodeEntries (data : Bytes) : Option Decoded :=
  if data.length < 2 then none
  else
    match decodeList (readU16 data).toNat (data.drop 2) ∅ with
    | none => none
    | some (entries,p) =>
      if p.length < 2 then none
      else
        let tombCount := (readU16 p).toNat
        let p := p.drop 2
        if p.length < tombCount * 6 then none
        else some ⟨entries,(decodeTags tombCount p ∅).1⟩

/-! ### Merge -/

/-- One incoming tag of an element: tombstoned tags are skipped, and a tag that
    was not there is a change. -/
def mergeTag (tombstones : TagSet) (st : TagSet × Bool) (tag : OrSetTag) : TagSet × Bool :=
  if tombstones.contains tag then st
  else if st.1.contains tag then st
  else (st.1.insert tag,true)

/-- One incoming element; it gets an entry even when none of its tags is taken. -/
def mergeEntry (tombstones : TagSet) (st : EntryMap × Bool) (e : Bytes × TagSet) : EntryMap × Bool :=
  let (tags,changed) := e.2.toList.foldl (mergeTag tombstones) (tagsOf st.1 e.1,st.2)
  (st.1.insert e.1 tags,changed)

def eraseTags (tombstones : TagSet) (tags : TagSet) : TagSet :=
  tombstones.toList.foldl (fun tags tomb => tags.erase tomb) tags

/-- The largest sequence number seen of the node's own tags. -/
def maxSeq (nodeId : UInt16) (seq : UInt32) (tags : List OrSetTag) : UInt32 :=
  tags.foldl (fun seq tag => if tag.nodeId = nodeId ∧ tag.sequence > seq then tag.sequence else seq) seq

/-- The set after merging decoded bytes, and whether the merge reports a change. -/
def mergeDecoded (s : OrSet) (incoming : Decoded) : OrSet × Bool :=
  let cleared := s.entries.map (fun _ tags => eraseTags incoming.tombstones tags)
  let changed := s.entries.toList.any (fun e => (eraseTags incoming.tombstones e.2).size != e.2.size)
  let (joined,changed) := incoming.entries.toList.foldl (mergeEntry incoming.tombstones) (cleared,changed)
  -- empty entries are dropped, which counts as a change
  let changed := changed || joined.toList.any (fun e => e.2.isEmpty)
  ({ s with
      entries := joined.filter (fun _ tags => !tags.isEmpty)
      seq := maxSeq s.nodeId s.seq (incoming.entries.toList.flatMap (fun e => e.2.toList)) },changed)

def merge (s : OrSet) (data : Bytes) : OrSet × Bool :=
  match decodeEntries data with
  | none => (s,false)
  | some incoming => s.mergeDecoded incoming

theorem contains_iff (s : OrSet) (elem : Bytes) : s.contains elem = true ↔ ∃ tag, tag ∈ tagsOf s.entries elem := by
  rw [contains,tagsOf_eq]
  cases s.entries[elem]? with
  | none => simp
  | some tags =>
    rw [Bool.not_eq_eq_eq_not,Bool.not_true,← Bool.not_eq_true,isEmpty_iff_forall]
    simp

theorem mem_eraseTags (tombstones tags : TagSet) (tag : OrSetTag) :
    tag ∈ eraseTags tombstones tags ↔ tag ∈ tags ∧ tag ∉ tombstones := by
  have erased : ∀ (l : List OrSetTag) (tags : TagSet),
      tag ∈ l.foldl (fun tags tomb => tags.erase tomb) tags ↔ tag ∈ tags ∧ tag ∉ l := by
    intro l
    induction l with
    | nil => simp
    | cons t l ih =>
      intro tags
      rw [List.foldl_cons,ih,ExtTreeSet.mem_erase]
      simp only [ne_eq,LawfulEqCmp.compare_eq_iff_eq,List.mem_cons,not_or]
      rw [eq_comm]
      tauto
  rw [eraseTags,erased,ExtTreeSet.mem_toList]

theorem mem_foldl_mergeTag (tombstones : TagSet) (l : List OrSetTag) (st : TagSet × Bool) (tag : OrSetTag) :
    tag ∈ (l.foldl (mergeTag tombstones) st).1 ↔ tag ∈ st.1 ∨ tag ∈ l ∧ tag ∉ tombstones := by
  induction l generalizing st with
  | nil => simp
  | cons t l ih =>
    have head : tag ∈ (mergeTag tombstones st t).1 ↔ tag ∈ st.1 ∨ tag = t ∧ tag ∉ tombstones := by
      unfold mergeTag
      split
      · next dead =>
        rw [ExtTreeSet.contains_iff_mem] at dead
        constructor
        · exact .inl
        · rintro (old | ⟨rfl,alive⟩)
          · exact old
          · exact absurd dead alive
      · next alive =>
        rw [ExtTreeSet.contains_iff_mem] at alive
        split
        · next present =>
          rw [ExtTreeSet.contains_iff_mem] at present
          constructor
          · exact .inl
          · rintro (old | ⟨rfl,_⟩)
            · exact old
            · exact present
        · simp only [ExtTreeSet.mem_insert,LawfulEqCmp.compare_eq_iff_eq]
          constructor
          · rintro (rfl | old)
            · exact .inr ⟨rfl,alive⟩
            · exact .inl old
          · rintro (old | ⟨rfl,_⟩)
            · exact .inr old
            · exact .inl rfl
    rw [List.foldl_cons,ih,head,List.mem_cons,or_and_right,or_assoc]

theorem mem_foldl_mergeEntry (tombstones : TagSet) (l : List (Bytes × TagSet)) (st : EntryMap × Bool) (key : Bytes)
    (tag : OrSetTag) :
    tag ∈ tagsOf (l.foldl (mergeEntry tombstones) st).1 key ↔
      tag ∈ tagsOf st.1 key ∨ (∃ e ∈ l, e.1 = key ∧ tag ∈ e.2) ∧ tag ∉ tombstones := by
  induction l generalizing st with
  | nil => simp
  | cons e l ih =>
    have head : tag ∈ tagsOf (mergeEntry tombstones st e).1 key ↔
        tag ∈ tagsOf st.1 key ∨ (e.1 = key ∧ tag ∈ e.2) ∧ tag ∉ tombstones := by
      rw [mergeEntry,tagsOf_insert]
      by_cases same : e.1 = key
      · rw [if_pos same,mem_foldl_mergeTag,ExtTreeSet.mem_toList,same]
        simp
      · simp [same]
    rw [List.foldl_cons,ih,head,List.exists_mem_cons_iff,or_and_right,or_assoc]

theorem tagsOf_map_erase (tombstones : TagSet) (m : EntryMap) (key : Bytes) (tag : OrSetTag) :
    tag ∈ tagsOf (m.map (fun _ tags => eraseTags tombstones tags)) key ↔ tag ∈ tagsOf m key ∧ tag ∉ tombstones := by
  rw [tagsOf_eq,tagsOf_eq,ExtTreeMap.getElem?_map]
  cases m[key]? with
  | none => simp
  | some tags => exact mem_eraseTags tombstones tags tag

theorem mem_tagsOf_filter (m : EntryMap) (key : Bytes) (tag : OrSetTag) :
    tag ∈ tagsOf (m.filter (fun _ tags => !tags.isEmpty)) key ↔ tag ∈ tagsOf m key := by
  rw [mem_tagsOf_iff,mem_tagsOf_iff,ExtTreeMap.toList_filter]
  constructor
  · rintro ⟨e,listed,same,member⟩
    exact ⟨e,(List.mem_filter.mp listed).1,same,member⟩
  · rintro ⟨e,listed,same,member⟩
    refine ⟨e,List.mem_filter.mpr ⟨listed,?_⟩,same,member⟩
    rw [Bool.not_eq_eq_eq_not,Bool.not_true,← Bool.not_eq_true,isEmpty_iff_forall]
    exact fun none => none tag member

/-- After a merge an element has the tags it had and the incoming ones, less the
    incoming tombstones. -/
theorem tag_mem_merge (s : OrSet) (incoming : Decoded) (key : Bytes) (tag : OrSetTag) :
    tag ∈ tagsOf (s.mergeDecoded incoming).1.entries key ↔
      (tag ∈ tagsOf s.entries key ∨ tag ∈ tagsOf incoming.entries key) ∧ tag ∉ incoming.tombstones := by
  show tag ∈ tagsOf (ExtTreeMap.filter (fun _ tags => !tags.isEmpty) _) key ↔ _
  rw [mem_tagsOf_filter,mem_foldl_mergeEntry,tagsOf_map_erase,← mem_tagsOf_iff,← or_and_right]

def snapshot (s : OrSet) : Bytes := encodeEntries s.entries ∅

/-- The bytes to send, empty when there is nothing new, and the set after. -/
def delta (s : OrSet) : Bytes × OrSet :=
  if !s.dirty then ([],s)
  else (encodeEntries s.pendingAdds s.pendingRemoves,{ s with dirty := false, pendingAdds := ∅, pendingRemoves := ∅ })

def hasPendingDelta (s : OrSet) : Bool := s.dirty

end OrSet
end Rom
