import Rom.Orderly

/-!
What a merge reports. It should say that it has changed something exactly when the
snapshot of the value has changed, so that merging the same bytes again reports
nothing and the update callback runs only for real changes. Registers and counters
do. A set gives every element of a payload an entry, also when none of its tags is
taken, and counts it as a change when it takes the empty entry away again
(`phantom_reported`). It reports truthfully only if each element that the payload
lists has a tag, there or in the set, that the payload does not tombstone, and within
the limits of the wire this is enough (`reports_iff`).
-/
namespace Rom.Reports
open Std Rom.Runs
open Rom.GCounter (mergeEntry mergeEntries encodeEntries carriedEntries)
open Rom.OrSet (carried Fits Trim)

/-- The merge reports what it does. -/
structure Truthful (c : Crdt) (data : Bytes) : Prop where
  reported : (c.merge data).2 = true ↔ (c.merge data).1.snapshot ≠ c.snapshot
  /-- The same bytes once more bring nothing new. -/
  again : ((c.merge data).1.merge data).2 = false
  /-- A registry runs its callback for a change. -/
  notified : ∀ (s : StateRegistry) (hash : UInt32) (region : StateRegion), s.get hash = some region → region.crdt = c →
    s.notifies = true → ((s.applyDelta hash data).1.updates ≠ s.updates ↔ (c.merge data).1.snapshot ≠ c.snapshot)

section
variable (s : OrSet) (i : Decoded)

/-- The tags of an element, in the set or in a payload, that the payload does not
    tombstone. -/
def survivors (elem : Bytes) : List OrSetTag :=
  ((tagsOf s.entries elem).toList ∪ (tagsOf i.entries elem).toList).filter (fun tag => !i.tombstones.contains tag)

/-- The elements of a set and a payload. -/
def mentioned : List Bytes := s.entries.keys ∪ i.entries.keys

/-- The set fits the fields of the wire, and so do the numbers of tags and elements
    that a payload leaves. -/
structure Within : Prop where
  before : Fits s.entries ∅
  tags : ∀ elem ∈ mentioned s i, (survivors s i elem).length < 2^8
  elements : ((mentioned s i).filter (fun elem => survivors s i elem ≠ [])).length < 2^16

instance : Decidable (Within s i) :=
  decidable_of_iff
    (Fits s.entries ∅ ∧ (∀ elem ∈ mentioned s i, (survivors s i elem).length < 2^8) ∧
      ((mentioned s i).filter (fun elem => survivors s i elem ≠ [])).length < 2^16)
    ⟨fun ⟨before,tags,elements⟩ => ⟨before,tags,elements⟩,fun within => ⟨within.before,within.tags,within.elements⟩⟩

end

/-- Every element that the payload lists has a tag that is not tombstoned. -/
def Lasting : Crdt → Bytes → Prop
  | .orSet s, data => ∀ elem ∈ (carried data).entries.keys, survivors s (carried data) elem ≠ []
  | _, _ => True

/-- The numbers of a set and of a payload for it are within the limits. -/
def Limited : Crdt → Bytes → Prop
  | .orSet s, data => Within s (carried data)
  | _, _ => True

theorem truthful_of {c : Crdt} {data : Bytes}
    (reported : (c.merge data).2 = true ↔ (c.merge data).1.snapshot ≠ c.snapshot)
    (again : ((c.merge data).1.merge data).2 = false) : Truthful c data := by
  refine ⟨reported,again,?_⟩
  intro s hash region found same notifies
  have updates : (s.applyDelta hash data).1.updates =
      if (c.merge data).2 then s.updates ++ [(region.path,(c.merge data).1.snapshot)] else s.updates := by
    simp [StateRegistry.applyDelta,found,same,notifies]
  rw [updates,← reported]
  cases (c.merge data).2 with
  | false => simp
  | true => simp

theorem truthful_of_unchanged {c : Crdt} {data : Bytes} (unchanged : c.merge data = (c,false)) : Truthful c data := by
  refine truthful_of ?_ ?_
  · rw [unchanged]
    simp
  · rw [unchanged,unchanged]

/-! ### Registers -/

theorem register_cases (r : LwwRegister) (data : Bytes) :
    r.merge data = (r,false) ∨ (r.merge data).2 = true ∧ r.stamp < LwwRegister.wireStamp data := by
  unfold LwwRegister.merge LwwRegister.wireStamp
  split
  · exact .inl rfl
  · by_cases wins : r.incomingWins (readU32 data) (readU16 (data.drop 4)) = true
    · exact .inr ⟨by simp [wins],(LwwRegister.incomingWins_iff r _ _).mp wins⟩
    · exact .inl (by simp [wins])

theorem register_truthful (r : LwwRegister) (data : Bytes) : Truthful (.lwwRegister r) data := by
  rcases register_cases r data with unchanged | ⟨reported,newer⟩
  · exact truthful_of_unchanged (by rw [Crdt.merge,unchanged])
  · have stamp := LwwRegister.stamp_merge r data
    rw [max_eq_right newer.le] at stamp
    refine truthful_of (iff_of_true reported ?_) ?_
    · intro same
      have bytes : (r.merge data).1.encodeState = r.encodeState := same
      have stamps := congrArg LwwRegister.wireStamp bytes
      rw [LwwRegister.wireStamp_encodeState,LwwRegister.wireStamp_encodeState,stamp] at stamps
      exact newer.ne' stamps
    · rcases register_cases (r.merge data).1 data with unchanged | ⟨_,later⟩
      · exact congrArg Prod.snd unchanged
      · rw [stamp] at later
        exact absurd later (lt_irrefl _)

/-! ### Counters -/

theorem mergeEntry_cases (st : GCounter × Bool) (nid : UInt16) (cnt : UInt64) :
    mergeEntry st nid cnt = st ∨ (mergeEntry st nid cnt).2 = true := by
  rw [mergeEntry]
  split
  · split
    · exact .inr rfl
    · exact .inl rfl
  · exact .inr rfl

theorem mergeEntries_reported (st : GCounter × Bool) (reported : st.2 = true) (l : List GCounterEntry) :
    (mergeEntries st l).2 = true := by
  induction l generalizing st with
  | nil => exact reported
  | cons e l ih =>
    refine ih (mergeEntry st e.nodeId e.count) ?_
    rcases mergeEntry_cases st e.nodeId e.count with same | changed
    · rw [same]
      exact reported
    · exact changed

/-- A counter that reports nothing has not changed. -/
theorem mergeEntries_unreported {st : GCounter × Bool} {l : List GCounterEntry} (silent : (mergeEntries st l).2 = false) :
    mergeEntries st l = st := by
  induction l generalizing st with
  | nil => rfl
  | cons e l ih =>
    have step : mergeEntries st (e :: l) = mergeEntries (mergeEntry st e.nodeId e.count) l := rfl
    rcases mergeEntry_cases st e.nodeId e.count with same | changed
    · rw [step,same] at silent ⊢
      exact ih silent
    · rw [step,mergeEntries_reported _ changed] at silent
      cases silent

theorem mergeEntries_reported_iff (c : GCounter) (l : List GCounterEntry) :
    (mergeEntries (c,false) l).2 = true ↔ (mergeEntries (c,false) l).1 ≠ c := by
  constructor
  · intro reported same
    have unchanged := GCounter.mergeEntries_of_has ((GCounter.mergeEntries_unchanged_iff (c,false) l).mp same)
    rw [unchanged] at reported
    cases reported
  · intro changed
    by_contra silent
    exact changed (congrArg Prod.fst (mergeEntries_unreported (Bool.eq_false_iff.mpr silent)))

theorem mergeEntries_rest (st : GCounter × Bool) (l : List GCounterEntry) :
    (mergeEntries st l).1 = { st.1 with entries := (mergeEntries st l).1.entries } := by
  induction l generalizing st with
  | nil => rfl
  | cons e l ih =>
    have first : (mergeEntry st e.nodeId e.count).1 =
        { st.1 with entries := (mergeEntry st e.nodeId e.count).1.entries } := by
      rw [mergeEntry]
      split
      · split
        · rfl
        · rfl
      · rfl
    have rest := ih (mergeEntry st e.nodeId e.count)
    rw [first] at rest
    exact rest

theorem length_le_mergeEntries (st : GCounter × Bool) (l : List GCounterEntry) :
    st.1.entries.length ≤ (mergeEntries st l).1.entries.length := by
  induction l generalizing st with
  | nil => exact le_rfl
  | cons e l ih =>
    refine Nat.le_trans ?_ (ih (mergeEntry st e.nodeId e.count))
    have nodes := congrArg List.length (GCounter.nodesOf_mergeEntry st e.nodeId e.count)
    rw [GCounter.nodesOf,List.length_map] at nodes
    rw [nodes]
    split
    · rw [GCounter.nodesOf,List.length_map]
    · rw [GCounter.nodesOf,List.length_append,List.length_map]
      exact Nat.le_add_right _ _

/-- Entries are told apart by what is written of them, whatever number stands
    before them. -/
theorem encodeEntries_injective {l m : List GCounterEntry} (same : encodeEntries l = encodeEntries m) : l = m := by
  have lengths := congrArg List.length same
  rw [GCounter.encodeEntries_length,GCounter.encodeEntries_length,GCounter.entryWireSize] at lengths
  have length : l.length = m.length := by omega
  have bytes : l.flatMap GCounter.encodeEntry = m.flatMap GCounter.encodeEntry := List.tail_eq_of_cons_eq same
  have readL := GCounter.readEntries_encode l [] (Nat.le_refl l.length)
  have readM := GCounter.readEntries_encode m [] (Nat.le_refl m.length)
  rw [List.take_length] at readL readM
  rw [← readL,bytes,length,readM]

/-- A counter has changed exactly if its entries have. -/
theorem mergeEntries_changed_iff (c : GCounter) (l : List GCounterEntry) :
    (mergeEntries (c,false) l).1 ≠ c ↔ (mergeEntries (c,false) l).1.entries ≠ c.entries := by
  have rest := mergeEntries_rest (c,false) l
  refine not_congr ⟨fun same => by rw [same],fun same => ?_⟩
  rw [rest,same]

theorem mergeEntries_again (c : GCounter) (l : List GCounterEntry) :
    mergeEntries ((mergeEntries (c,false) l).1,false) l = ((mergeEntries (c,false) l).1,false) :=
  GCounter.mergeEntries_of_has (fun _ member => GCounter.has_merged (c,false) member)

theorem gCounter_truthful (c : GCounter) (data : Bytes) : Truthful (.gCounter c) data := by
  have merged := GCounter.merge_eq c data
  refine truthful_of ?_ ?_
  · show (c.merge data).2 = true ↔ encodeEntries (c.merge data).1.entries ≠ encodeEntries c.entries
    rw [merged,mergeEntries_reported_iff,mergeEntries_changed_iff]
    exact not_congr ⟨fun same => by rw [same],encodeEntries_injective⟩
  · show ((c.merge data).1.merge data).2 = false
    rw [merged,GCounter.merge_eq,mergeEntries_again]

section
open Rom.PnCounter (Side half carriedOn)

theorem pnCounter_reported (c : PnCounter) (data : Bytes) :
    (c.merge data).2 = ((mergeEntries (c.p,false) (carriedOn .up data)).2 ||
      (mergeEntries (c.n,false) (carriedOn .down data)).2) := by
  rw [PnCounter.merge,carriedOn,carriedOn,PnCounter.halves]
  by_cases short : data.length < 2
  · rw [if_pos short,if_pos short]
    rfl
  · rw [if_neg short,if_neg short]
    by_cases cut : data.length < 1 + (byteAt data 0).toNat * GCounter.entryWireSize + 1
    · simp only [if_pos cut]
      rfl
    · simp only [if_neg cut]
      rw [GCounter.merge_eq,GCounter.merge_eq]

theorem pnCounter_truthful (c : PnCounter) (data : Bytes) : Truthful (.pnCounter c) data := by
  have up : (c.merge data).1.p = (mergeEntries (c.p,false) (carriedOn .up data)).1 := PnCounter.half_merge .up c data
  have down : (c.merge data).1.n = (mergeEntries (c.n,false) (carriedOn .down data)).1 := PnCounter.half_merge .down c data
  refine truthful_of ?_ ?_
  · show (c.merge data).2 = true ↔ encodeEntries (c.merge data).1.p.entries ++ encodeEntries (c.merge data).1.n.entries ≠
      encodeEntries c.p.entries ++ encodeEntries c.n.entries
    rw [pnCounter_reported,Bool.or_eq_true,mergeEntries_reported_iff,mergeEntries_reported_iff,mergeEntries_changed_iff,
      mergeEntries_changed_iff,up,down,← not_and_or]
    refine not_congr ⟨fun same => by rw [same.1,same.2],fun same => ?_⟩
    -- neither half gets shorter, so the halves begin where they did
    have longerP := length_le_mergeEntries (c.p,false) (carriedOn .up data)
    have longerN := length_le_mergeEntries (c.n,false) (carriedOn .down data)
    have lengths := congrArg List.length same
    simp only [List.length_append,GCounter.encodeEntries_length,GCounter.entryWireSize] at lengths
    have first : (encodeEntries (mergeEntries (c.p,false) (carriedOn .up data)).1.entries).length =
        (encodeEntries c.p.entries).length := by
      rw [GCounter.encodeEntries_length,GCounter.encodeEntries_length,GCounter.entryWireSize]
      dsimp only at longerP longerN
      omega
    obtain ⟨sameP,sameN⟩ := List.append_inj same first
    exact ⟨encodeEntries_injective sameP,encodeEntries_injective sameN⟩
  · show ((c.merge data).1.merge data).2 = false
    rw [pnCounter_reported,up,down,mergeEntries_again,mergeEntries_again]
    rfl

end

/-! ### Sets -/

theorem mergeTag_reported (tombstones : TagSet) (l : List OrSetTag) (st : TagSet × Bool) :
    (l.foldl (OrSet.mergeTag tombstones) st).2 = true ↔ st.2 = true ∨ ∃ tag ∈ l, tag ∉ tombstones ∧ tag ∉ st.1 := by
  induction l generalizing st with
  | nil => simp
  | cons tag l ih =>
    rw [List.foldl_cons,ih,OrSet.mergeTag,List.exists_mem_cons_iff]
    by_cases dead : tag ∈ tombstones
    · simp [dead]
    · by_cases there : tag ∈ st.1
      · simp [dead,there]
      · simp [dead,there]

/-- The elements of a payload bring a change when one of their tags is not there and
    not tombstoned. -/
theorem mergeEntry_reported (tombstones : TagSet) (l : List (Bytes × TagSet)) (st : EntryMap × Bool) :
    (l.foldl (OrSet.mergeEntry tombstones) st).2 = true ↔
      st.2 = true ∨ ∃ e ∈ l, ∃ tag ∈ e.2, tag ∉ tombstones ∧ tag ∉ tagsOf st.1 e.1 := by
  induction l generalizing st with
  | nil => simp
  | cons e l ih =>
    have first : (OrSet.mergeEntry tombstones st e).2 = true ↔
        st.2 = true ∨ ∃ tag ∈ e.2, tag ∉ tombstones ∧ tag ∉ tagsOf st.1 e.1 := by
      rw [OrSet.mergeEntry]
      simp only [mergeTag_reported,ExtTreeSet.mem_toList]
    have tags := fun key tag => OrSet.mem_foldl_mergeEntry tombstones [e] st key tag
    simp only [List.foldl_cons,List.foldl_nil,List.mem_singleton,exists_eq_left] at tags
    rw [List.foldl_cons,ih,first,List.exists_mem_cons_iff,or_assoc]
    refine or_congr_right ⟨?_,?_⟩
    · rintro (here | ⟨e',later,tag,member,alive,new⟩)
      · exact .inl here
      · exact .inr ⟨e',later,tag,member,alive,fun old => new ((tags e'.1 tag).mpr (.inl old))⟩
    · rintro (here | ⟨e',later,tag,member,alive,new⟩)
      · exact .inl here
      · by_cases taken : tag ∈ tagsOf (OrSet.mergeEntry tombstones st e).1 e'.1
        · rcases (tags e'.1 tag).mp taken with old | ⟨⟨same,brought⟩,_⟩
          · exact absurd old new
          · exact .inl ⟨tag,brought,alive,same ▸ new⟩
        · exact .inr ⟨e',later,tag,member,alive,taken⟩

theorem mem_joined (tombstones : TagSet) (l : List (Bytes × TagSet)) (st : EntryMap × Bool) (key : Bytes) :
    key ∈ (l.foldl (OrSet.mergeEntry tombstones) st).1 ↔ key ∈ st.1 ∨ ∃ e ∈ l, e.1 = key := by
  induction l generalizing st with
  | nil => simp
  | cons e l ih =>
    rw [List.foldl_cons,ih,OrSet.mergeEntry,List.exists_mem_cons_iff]
    simp only [ExtTreeMap.mem_insert,LawfulEqCmp.compare_eq_iff_eq]
    tauto

theorem nodup_tags (tags : TagSet) : tags.toList.Nodup :=
  ExtTreeSet.distinct_toList.imp (fun apart same => apart (LawfulEqCmp.compare_eq_iff_eq.mpr same))

/-- A set of tags gets smaller exactly if it has one of the tombstones. -/
theorem eraseTags_size_iff (tombstones tags : TagSet) :
    (OrSet.eraseTags tombstones tags).size ≠ tags.size ↔ ∃ tag ∈ tags, tag ∈ tombstones := by
  constructor
  · intro smaller
    by_contra none
    have same : OrSet.eraseTags tombstones tags = tags := by
      apply ExtTreeSet.ext_mem
      intro tag
      rw [OrSet.mem_eraseTags]
      exact ⟨And.left,fun member => ⟨member,fun dead => none ⟨tag,member,dead⟩⟩⟩
    exact smaller (by rw [same])
  · rintro ⟨tag,member,dead⟩ same
    have sub : (OrSet.eraseTags tombstones tags).toList ⊆ tags.toList := by
      intro tag listed
      rw [ExtTreeSet.mem_toList] at listed ⊢
      exact ((OrSet.mem_eraseTags tombstones tags tag).mp listed).1
    have all := (List.subperm_of_subset (nodup_tags _) sub).perm_of_length_le
      (by rw [ExtTreeSet.length_toList,ExtTreeSet.length_toList,same])
    have kept := all.mem_iff.mpr (ExtTreeSet.mem_toList.mpr member)
    rw [ExtTreeSet.mem_toList,OrSet.mem_eraseTags] at kept
    exact kept.2 dead

section
variable (s : OrSet) (i : Decoded)

/-- A tag of the set is among the tombstones. -/
def Removes : Prop := ∃ elem tag, tag ∈ tagsOf s.entries elem ∧ tag ∈ i.tombstones

/-- A tag that is not tombstoned is new to its element. -/
def Adds : Prop := ∃ elem tag, tag ∈ tagsOf i.entries elem ∧ tag ∉ i.tombstones ∧ tag ∉ tagsOf s.entries elem

variable {s i}

theorem entries_changed_iff (trim : Trim s.entries) :
    (s.mergeDecoded i).1.entries ≠ s.entries ↔ Removes s i ∨ Adds s i := by
  constructor
  · intro changed
    by_contra none
    obtain ⟨keeps,brings⟩ := not_or.mp none
    refine changed (OrSet.entries_ext (OrSet.trim_mergeDecoded s i) trim (fun elem tag => ?_))
    rw [OrSet.tag_mem_merge]
    constructor
    · rintro ⟨old | new,alive⟩
      · exact old
      · by_contra absent
        exact brings ⟨elem,tag,new,alive,absent⟩
    · exact fun old => ⟨.inl old,fun dead => keeps ⟨elem,tag,old,dead⟩⟩
  · rintro (⟨elem,tag,old,dead⟩ | ⟨elem,tag,new,alive,absent⟩) same
    · rw [← same,OrSet.tag_mem_merge] at old
      exact old.2 dead
    · exact absent (same ▸ (OrSet.tag_mem_merge s i elem tag).mpr ⟨.inr new,alive⟩)

/-- The elements of the set without the tombstoned tags. -/
def cleared (s : OrSet) (i : Decoded) : EntryMap := s.entries.map (fun _ tags => OrSet.eraseTags i.tombstones tags)

/-- The elements before empty ones are dropped, and what is reported of them. -/
def joined (s : OrSet) (i : Decoded) : EntryMap × Bool :=
  i.entries.toList.foldl (OrSet.mergeEntry i.tombstones)
    (cleared s i,s.entries.toList.any (fun e => (OrSet.eraseTags i.tombstones e.2).size != e.2.size))

theorem mergeDecoded_reported (s : OrSet) (i : Decoded) :
    (s.mergeDecoded i).2 = ((joined s i).2 || (joined s i).1.toList.any (fun e => e.2.isEmpty)) := rfl

theorem found_iff {m : EntryMap} {elem : Bytes} : elem ∈ m ↔ ∃ tags, m[elem]? = some tags := by
  rw [ExtTreeMap.mem_iff_isSome_getElem?,Option.isSome_iff_exists]

theorem joined_reported (s : OrSet) (i : Decoded) : (joined s i).2 = true ↔ Removes s i ∨ Adds s i := by
  rw [joined,mergeEntry_reported]
  refine or_congr ?_ ?_
  · rw [List.any_eq_true]
    simp only [bne_iff_ne,eraseTags_size_iff]
    constructor
    · rintro ⟨e,listed,tag,member,dead⟩
      exact ⟨e.1,tag,(mem_tagsOf_iff _ _ _).mpr ⟨e,listed,rfl,member⟩,dead⟩
    · rintro ⟨elem,tag,member,dead⟩
      obtain ⟨e,listed,_,tagged⟩ := (mem_tagsOf_iff _ _ _).mp member
      exact ⟨e,listed,tag,tagged,dead⟩
  · constructor
    · rintro ⟨e,listed,tag,member,alive,absent⟩
      refine ⟨e.1,tag,(mem_tagsOf_iff _ _ _).mpr ⟨e,listed,rfl,member⟩,alive,fun old => absent ?_⟩
      exact (OrSet.tagsOf_map_erase _ _ _ _).mpr ⟨old,alive⟩
    · rintro ⟨elem,tag,member,alive,absent⟩
      obtain ⟨e,listed,rfl,tagged⟩ := (mem_tagsOf_iff _ _ _).mp member
      exact ⟨e,listed,tag,tagged,alive,fun old => absent ((OrSet.tagsOf_map_erase _ _ _ _).mp old).1⟩

theorem mem_joined_iff (s : OrSet) (i : Decoded) (elem : Bytes) :
    elem ∈ (joined s i).1 ↔ elem ∈ s.entries ∨ elem ∈ i.entries := by
  rw [joined,mem_joined,cleared,ExtTreeMap.mem_map]
  refine or_congr_right ⟨?_,?_⟩
  · rintro ⟨e,listed,rfl⟩
    exact found_iff.mpr ⟨e.2,ExtTreeMap.mem_toList_iff_getElem?_eq_some.mp listed⟩
  · intro member
    obtain ⟨tags,found⟩ := found_iff.mp member
    exact ⟨(elem,tags),ExtTreeMap.mem_toList_iff_getElem?_eq_some.mpr found,rfl⟩

theorem not_contains_iff (s : OrSet) (i : Decoded) (elem : Bytes) :
    (s.mergeDecoded i).1.contains elem = false ↔ ∀ tag, tag ∉ tagsOf (joined s i).1 elem := by
  rw [← Bool.not_eq_true,OrSet.contains_iff]
  simp only [not_exists]
  exact forall_congr' (fun tag => not_congr (OrSet.mem_tagsOf_filter (joined s i).1 elem tag))

/-- An entry is dropped where an element is left without tags. -/
theorem dropped_iff (s : OrSet) (i : Decoded) :
    (joined s i).1.toList.any (fun e => e.2.isEmpty) = true ↔
      ∃ elem, (elem ∈ s.entries ∨ elem ∈ i.entries) ∧ (s.mergeDecoded i).1.contains elem = false := by
  simp only [List.any_eq_true,isEmpty_iff_forall,not_contains_iff,← mem_joined_iff,tagsOf_eq]
  constructor
  · rintro ⟨e,listed,empty⟩
    have found := ExtTreeMap.mem_toList_iff_getElem?_eq_some.mp listed
    refine ⟨e.1,found_iff.mpr ⟨e.2,found⟩,?_⟩
    rw [found]
    exact empty
  · rintro ⟨elem,member,empty⟩
    obtain ⟨tags,found⟩ := found_iff.mp member
    rw [found] at empty
    exact ⟨(elem,tags),ExtTreeMap.mem_toList_iff_getElem?_eq_some.mpr found,empty⟩

/-- A set reports that its elements have changed, or that the payload lists an
    element that it does not have then. -/
theorem orSet_reported_iff (trim : Trim s.entries) :
    (s.mergeDecoded i).2 = true ↔ (s.mergeDecoded i).1.entries ≠ s.entries ∨
      ∃ elem ∈ i.entries, (s.mergeDecoded i).1.contains elem = false := by
  rw [mergeDecoded_reported,Bool.or_eq_true,joined_reported,dropped_iff,entries_changed_iff trim]
  constructor
  · rintro (changed | ⟨elem,old | listed,gone⟩)
    · exact .inl changed
    · -- an element of the set had tags, so they were removed
      obtain ⟨tags,found⟩ := found_iff.mp old
      obtain ⟨tag,member⟩ := (OrSet.trim_iff _).mp trim elem tags found
      have there : tag ∈ tagsOf s.entries elem := by
        rw [tagsOf_eq,found]
        exact member
      refine .inl (.inl ⟨elem,tag,there,?_⟩)
      by_contra alive
      rw [← Bool.not_eq_true,OrSet.contains_iff] at gone
      exact gone ⟨tag,(OrSet.tag_mem_merge s i elem tag).mpr ⟨.inl there,alive⟩⟩
    · exact .inr ⟨elem,listed,gone⟩
  · rintro (changed | ⟨elem,listed,gone⟩)
    · exact .inl changed
    · exact .inr ⟨elem,.inr listed,gone⟩

/-- Merging what was merged already leaves the elements as they are. -/
theorem mergeDecoded_again (s : OrSet) (i : Decoded) :
    ((s.mergeDecoded i).1.mergeDecoded i).1.entries = (s.mergeDecoded i).1.entries := by
  refine OrSet.entries_ext (OrSet.trim_mergeDecoded _ i) (OrSet.trim_mergeDecoded s i) (fun elem tag => ?_)
  rw [OrSet.tag_mem_merge,OrSet.tag_mem_merge]
  tauto

/-- The same payload once more reports nothing exactly if the set has what it
    lists. -/
theorem silent_again_iff (s : OrSet) (i : Decoded) :
    ((s.mergeDecoded i).1.mergeDecoded i).2 = false ↔ ∀ elem ∈ i.entries, (s.mergeDecoded i).1.contains elem = true := by
  have same := mergeDecoded_again s i
  have still : ∀ elem, ((s.mergeDecoded i).1.mergeDecoded i).1.contains elem = (s.mergeDecoded i).1.contains elem := by
    intro elem
    rw [OrSet.contains,OrSet.contains,same]
  rw [← Bool.not_eq_true,orSet_reported_iff (OrSet.trim_mergeDecoded s i)]
  simp [same,still]

end

/-! ### Limits -/

section
variable {s : OrSet} {i : Decoded} {data : Bytes}

theorem mem_survivors (elem : Bytes) (tag : OrSetTag) :
    tag ∈ survivors s i elem ↔ (tag ∈ tagsOf s.entries elem ∨ tag ∈ tagsOf i.entries elem) ∧ tag ∉ i.tombstones := by
  rw [survivors,List.mem_filter,List.mem_union_iff,ExtTreeSet.mem_toList,ExtTreeSet.mem_toList,Bool.not_eq_eq_eq_not,
    Bool.not_true,← Bool.not_eq_true,ExtTreeSet.contains_iff_mem]

/-- What an element has after the merge survives. -/
theorem mem_tagsOf_merge (elem : Bytes) (tag : OrSetTag) :
    tag ∈ tagsOf (s.merge data).1.entries elem ↔ tag ∈ survivors s (carried data) elem := by
  rw [OrSet.tag_mem_merge_carried,mem_survivors]

theorem contains_merge_iff (elem : Bytes) :
    (s.merge data).1.contains elem = true ↔ survivors s (carried data) elem ≠ [] := by
  rw [OrSet.contains_iff]
  simp only [mem_tagsOf_merge]
  exact ⟨fun ⟨_,member⟩ => List.ne_nil_of_mem member,List.exists_mem_of_ne_nil _⟩

/-- An element that keeps a tag is in the set or in the payload. -/
theorem mentioned_of_survivor {elem : Bytes} {tag : OrSetTag} (survives : tag ∈ survivors s i elem) :
    elem ∈ mentioned s i := by
  have key {m : EntryMap} (member : tag ∈ tagsOf m elem) : elem ∈ m.keys := by
    obtain ⟨e,inside,same,_⟩ := (mem_tagsOf_iff m elem tag).mp member
    rw [← ExtTreeMap.map_fst_toList_eq_keys]
    exact List.mem_map.mpr ⟨e,inside,same⟩
  rw [mentioned,List.mem_union_iff]
  exact ((mem_survivors elem tag).mp survives).1.imp key key

/-- An element is read with a length of 16 bits. -/
theorem short_decodeEntry {p rest : Bytes} {e : Bytes × TagSet} (read : OrSet.decodeEntry p = some (e,rest)) :
    e.1.length < 2^16 := by
  simp only [OrSet.decodeEntry] at read
  split at read
  · cases read
  · split at read
    · cases read
    · split at read
      · cases read
      · split at read
        · cases read
        · cases read
          rw [List.length_take]
          exact Nat.lt_of_le_of_lt (Nat.min_le_left _ _) (readU16 p).toNat_lt

theorem short_decodeList (n : ℕ) {p rest : Bytes} {m m' : EntryMap} (short : ∀ elem ∈ m, elem.length < 2^16)
    (read : OrSet.decodeList n p m = some (m',rest)) : ∀ elem ∈ m', elem.length < 2^16 := by
  induction n generalizing p m with
  | zero =>
    cases read
    exact short
  | succ n ih =>
    rw [OrSet.decodeList] at read
    cases first : OrSet.decodeEntry p with
    | none =>
      rw [first] at read
      cases read
    | some found =>
      rw [first] at read
      refine ih (fun elem member => ?_) read
      rw [OrSet.insertTags,ExtTreeMap.mem_insert,LawfulEqCmp.compare_eq_iff_eq] at member
      rcases member with rfl | old
      · exact short_decodeEntry first
      · exact short elem old

theorem short_carried (data : Bytes) : ∀ elem ∈ (carried data).entries, elem.length < 2^16 := by
  have none : ∀ elem ∈ (∅ : EntryMap), elem.length < 2^16 := fun elem member => absurd member ExtTreeMap.not_mem_empty
  rw [carried,OrSet.decodeEntries]
  split
  · exact none
  · cases read : OrSet.decodeList (readU16 data).toNat (data.drop 2) ∅ with
    | none => exact none
    | some found =>
      dsimp only
      split
      · exact none
      · split
        · exact none
        · exact short_decodeList _ none read

/-- Within the limits, the set fits the wire after the merge too. -/
theorem fits_merge (trim : Trim s.entries) (within : Within s (carried data)) : Fits (s.merge data).1.entries ∅ := by
  have trimmed := OrSet.trim_merge trim data
  have tagged {e : Bytes × TagSet} (inside : e ∈ (s.merge data).1.entries.toList) :
      tagsOf (s.merge data).1.entries e.1 = e.2 := by
    rw [tagsOf_eq,ExtTreeMap.mem_toList_iff_getElem?_eq_some.mp inside]
    rfl
  -- no element is left without a tag, so each was listed before
  have alive {e : Bytes × TagSet} (inside : e ∈ (s.merge data).1.entries.toList) :
      survivors s (carried data) e.1 ≠ [] := by
    obtain ⟨tag,member⟩ := (OrSet.trim_iff _).mp trimmed e.1 e.2 (ExtTreeMap.mem_toList_iff_getElem?_eq_some.mp inside)
    rw [← tagged inside,mem_tagsOf_merge] at member
    exact List.ne_nil_of_mem member
  have old {e : Bytes × TagSet} (inside : e ∈ (s.merge data).1.entries.toList) : e.1 ∈ mentioned s (carried data) := by
    obtain ⟨tag,survives⟩ := List.exists_mem_of_ne_nil _ (alive inside)
    exact mentioned_of_survivor survives
  refine ⟨fun e inside => ?_,fun e inside => ?_,?_,by decide⟩
  · rcases List.mem_union_iff.mp (old inside) with held | brought
    · rw [← ExtTreeMap.map_fst_toList_eq_keys] at held
      obtain ⟨e',inside',same⟩ := List.mem_map.mp held
      exact same ▸ within.before.elem e' inside'
    · exact short_carried data e.1 (ExtTreeMap.mem_keys.mp brought)
  · refine Nat.lt_of_le_of_lt ?_ (within.tags e.1 (old inside))
    rw [← ExtTreeSet.length_toList]
    refine (List.subperm_of_subset (nodup_tags e.2) (fun tag member => ?_)).length_le
    rwa [ExtTreeSet.mem_toList,← tagged inside,mem_tagsOf_merge] at member
  · refine Nat.lt_of_le_of_lt ?_ within.elements
    refine Nat.le_trans (List.length_filter_le _ _) ?_
    rw [← List.length_map Prod.fst,ExtTreeMap.map_fst_toList_eq_keys]
    refine (List.subperm_of_subset ExtTreeMap.nodup_keys (fun elem member => ?_)).length_le
    rw [← ExtTreeMap.map_fst_toList_eq_keys] at member
    obtain ⟨e,inside,rfl⟩ := List.mem_map.mp member
    exact List.mem_filter.mpr ⟨old inside,by simpa using alive inside⟩

/-- Snapshots of sets within the limits show every change. -/
theorem visible_of_within (trim : Trim s.entries) (within : Within s (carried data))
    (changed : (s.merge data).1.entries ≠ s.entries) : (s.merge data).1.snapshot ≠ s.snapshot := by
  intro same
  refine changed (OrSet.entries_ext (OrSet.trim_merge trim data) trim (fun elem tag => ?_))
  rw [← OrSet.mem_carried_entries (fits_merge trim within) elem tag,← OrSet.mem_carried_entries within.before elem tag]
  exact Iff.of_eq (congrArg (fun data => tag ∈ tagsOf (carried data).entries elem) same)

/-- Where elements last, the same payload once more reports nothing. -/
theorem lasting_iff : Lasting (.orSet s) data ↔ ((s.merge data).1.merge data).2 = false := by
  cases read : OrSet.decodeEntries data with
  | none =>
    have nothing : (carried data).entries.keys = [] := by
      rw [carried,read]
      rfl
    refine iff_of_true (fun elem member => ?_) (by rw [OrSet.merge_of_unread read])
    rw [nothing] at member
    cases member
  | some i =>
    have merges := OrSet.merge_of_read read
    have here := OrSet.carried_of_read read
    rw [merges (s.merge data).1,merges s,silent_again_iff,Lasting,here]
    refine forall_congr' (fun elem => ?_)
    rw [ExtTreeMap.mem_keys,← here,← contains_merge_iff,merges,here]

theorem orSet_truthful (orderly : Orderly (.orSet s)) (lasts : Lasting (.orSet s) data)
    (within : Within s (carried data)) : Truthful (.orSet s) data := by
  refine truthful_of ?_ (lasting_iff.mp lasts)
  show (s.merge data).2 = true ↔ (s.merge data).1.snapshot ≠ s.snapshot
  have changes : (s.merge data).2 = true ↔ (s.merge data).1.entries ≠ s.entries := by
    cases read : OrSet.decodeEntries data with
    | none => simp [OrSet.merge_of_unread read]
    | some i =>
      have merges := OrSet.merge_of_read read s
      have here := OrSet.carried_of_read read
      rw [merges,orSet_reported_iff orderly.1]
      refine or_iff_left ?_
      rintro ⟨elem,member,gone⟩
      have stays := (contains_merge_iff elem).mpr (lasts elem (ExtTreeMap.mem_keys.mpr (here ▸ member)))
      rw [merges,gone] at stays
      cases stays
  rw [changes]
  refine ⟨visible_of_within orderly.1 within,fun differ entries => differ ?_⟩
  rw [OrSet.snapshot,OrSet.snapshot,entries]

end

/-- Which merges report truthfully, whatever has been done with the replica: only those
    whose elements last, and within the limits all of them. -/
theorem reports_iff (n : UInt16) (type : CrdtType) (c : Crdt) (created : (StateRegistry.new n).createCrdt type = some c)
    (actions : List Action) (data : Bytes) :
    (Truthful (run Crdt.act c actions) data → Lasting (run Crdt.act c actions) data) ∧
      (Limited (run Crdt.act c actions) data →
        (Truthful (run Crdt.act c actions) data ↔ Lasting (run Crdt.act c actions) data)) := by
  have orderly := Orderly.reached created actions
  cases reached : run Crdt.act c actions with
  | lwwRegister r => exact ⟨fun _ => trivial,fun _ => iff_of_true (register_truthful r data) trivial⟩
  | gCounter c => exact ⟨fun _ => trivial,fun _ => iff_of_true (gCounter_truthful c data) trivial⟩
  | pnCounter c => exact ⟨fun _ => trivial,fun _ => iff_of_true (pnCounter_truthful c data) trivial⟩
  | orSet s =>
    have lasts : Truthful (.orSet s) data → Lasting (.orSet s) data := fun truthful => lasting_iff.mpr truthful.again
    exact ⟨lasts,fun within => ⟨lasts,fun lasting => orSet_truthful (reached ▸ orderly) lasting within⟩⟩

/-- The delta of an add by node 2. -/
def added : Bytes := ((OrSet.new 2).add [120]).delta.1

theorem add_reported : Truthful (run Crdt.act (.orSet (.new 1)) []) added := by
  have within : Within (.new 1) (carried added) := by decide +kernel
  have lasts : ∀ elem ∈ (carried added).entries.keys, survivors (.new 1) (carried added) elem ≠ [] := by decide +kernel
  exact ((reports_iff 1 .orSet (.orSet (.new 1)) rfl [] added).2 within).mpr lasts

/-- What node 2 hands out when it has added an element and removed it again: the
    element with its tag, and the tag as a tombstone. -/
def addedAndRemoved : Bytes := (((OrSet.new 2).add [120]).remove [120]).1.delta.1

/-- It changes nothing in a new set, which reports a change each time. -/
theorem phantom_reported :
    (Crdt.merge (.orSet (.new 1)) addedAndRemoved).2 = true ∧
      (Crdt.merge (.orSet (.new 1)) addedAndRemoved).1.snapshot = Crdt.snapshot (.orSet (.new 1)) ∧
        ((Crdt.merge (.orSet (.new 1)) addedAndRemoved).1.merge addedAndRemoved).2 = true := by
  decide +kernel

end Rom.Reports
