import Rom.OrSetWire
import Rom.Replication

/-!
Replicas of one observed-remove set that add, remove, hand out deltas and merge
them in any order and any number of times. Two replicas that have seen the same
deltas should contain the same elements. They need not: a remove travels as
tombstones that a merge applies and forgets, so an add that arrives after its
remove, or once more, brings the element back (`differs_after_overtaking_remove`).
They do in every run in which no delivery brings a tag that the replica has seen
removed, tags are not numbered past 32 bits and the deltas fit their format
(`orSet_order_independent`).
-/
namespace Rom.OrSetRuns
open Std Rom.Runs Rom.Replication OrSet
set_option linter.unusedSectionVars false

/-- A local change. -/
inductive Change where
  | add (elem : Bytes)
  | remove (elem : Bytes)
  deriving DecidableEq, Repr

/-- The set as a replicated object; an empty delta is not sent. -/
def orSet : Object OrSet Change Bytes where
  apply s
    | .add elem => s.add elem
    | .remove elem => (s.remove elem).1
  delta s := (if s.delta.1.isEmpty then none else some s.delta.1,s.delta.2)
  merge s d := (s.merge d).1

variable {ι : Type*} [DecidableEq ι]

abbrev OrSetNetwork (ι : Type*) := Network ι OrSet Bytes
abbrev OrSetEvent (ι : Type*) := Event ι Change

/-- Every replica as it is constructed. -/
def begin (ids : ι → UInt16) : OrSetNetwork ι := start (fun i => OrSet.new (ids i))

/-- Every delta was handed out or merged by both replicas or by neither. -/
def SameDeltas (s : OrSetNetwork ι) (i j : ι) : Prop := ∀ k < s.sent.length, (Absorbed s i k ↔ Absorbed s j k)

instance (s : OrSetNetwork ι) (i j : ι) : Decidable (SameDeltas s i j) :=
  inferInstanceAs (Decidable (∀ k < s.sent.length, (Absorbed s i k ↔ Absorbed s j k)))

/-- Replicas without pending changes that have seen the same deltas contain the
    same elements. -/
def OrderIndependent (s : OrSetNetwork ι) : Prop :=
  ∀ i j, (s.node i).hasPendingDelta = false → (s.node j).hasPendingDelta = false → SameDeltas s i j →
    ∀ elem, (s.node i).contains elem = (s.node j).contains elem

/-- The replica knows of the tag at the element, from a change of its own or a
    delta. -/
def Added (s : OrSetNetwork ι) (i : ι) (key : Bytes) (tag : OrSetTag) : Prop :=
  Held s i (fun r => tag ∈ tagsOf r.pendingAdds key) (fun d => tag ∈ tagsOf (carried d).entries key)

/-- The replica has seen the tag removed. -/
def Removed (s : OrSetNetwork ι) (i : ι) (tag : OrSetTag) : Prop :=
  Held s i (fun r => tag ∈ r.pendingRemoves) (fun d => tag ∈ (carried d).tombstones)

instance (s : OrSetNetwork ι) (i : ι) (tag : OrSetTag) : Decidable (Removed s i tag) :=
  inferInstanceAs (Decidable (Held s i _ _))

/-- An add does not wrap the tag counter, a delta fits its format, and a delivery
    brings no tag that the replica has seen removed, unless it removes the tag
    again. -/
def InOrder (s : OrSetNetwork ι) : OrSetEvent ι → Prop
  | .act i (.add _) => (s.node i).seq.toNat + 1 < 2^32
  | .act _ (.remove _) => True
  | .emit i => Fits (s.node i).pendingAdds (s.node i).pendingRemoves
  | .deliver i k => ∀ d ∈ s.sent[k]?, ∀ e ∈ (carried d.2).entries.toList, ∀ tag ∈ e.2.toList,
      tag ∈ (carried d.2).tombstones ∨ ¬ Removed s i tag

instance (s : OrSetNetwork ι) (e : OrSetEvent ι) : Decidable (InOrder s e) :=
  match e with
  | .act i (.add _) => inferInstanceAs (Decidable ((s.node i).seq.toNat + 1 < 2^32))
  | .act _ (.remove _) => isTrue trivial
  | .emit i => inferInstanceAs (Decidable (Fits (s.node i).pendingAdds (s.node i).pendingRemoves))
  | .deliver i k => inferInstanceAs (Decidable (∀ d ∈ s.sent[k]?, ∀ e ∈ (carried d.2).entries.toList,
      ∀ tag ∈ e.2.toList, tag ∈ (carried d.2).tombstones ∨ ¬ Removed s i tag))

/-! ### One replica -/

theorem remove_cases (s : OrSet) (elem : Bytes) :
    (s.remove elem).1 = s ∧ (∀ tag, tag ∉ tagsOf s.entries elem) ∨
      (s.remove elem).1 =
        { s with
          pendingRemoves := (tagsOf s.entries elem).toList.foldl (fun removes tag => removes.insert tag) s.pendingRemoves
          entries := s.entries.erase elem
          dirty := true } := by
  rw [OrSet.remove,tagsOf_eq]
  cases s.entries[elem]? with
  | none => exact .inl ⟨rfl,by simp⟩
  | some tags =>
    by_cases empty : tags.isEmpty = true
    · exact .inl ⟨by simp [empty],(isEmpty_iff_forall tags).mp empty⟩
    · exact .inr (by simp [empty])

/-- A remove keeps the replica's tags to come and its own adds. -/
theorem remove_rest (s : OrSet) (elem : Bytes) :
    (s.remove elem).1.nodeId = s.nodeId ∧ (s.remove elem).1.seq = s.seq ∧
      (s.remove elem).1.pendingAdds = s.pendingAdds := by
  rcases remove_cases s elem with ⟨same,_⟩ | removed
  · rw [same]
    exact ⟨rfl,rfl,rfl⟩
  · rw [removed]
    exact ⟨rfl,rfl,rfl⟩

theorem mem_remove_entries (s : OrSet) (elem key : Bytes) (tag : OrSetTag) :
    tag ∈ tagsOf (s.remove elem).1.entries key ↔ elem ≠ key ∧ tag ∈ tagsOf s.entries key := by
  rcases remove_cases s elem with ⟨same,none⟩ | removed
  · rw [same]
    constructor
    · exact fun member => ⟨fun here => none tag (here ▸ member),member⟩
    · exact fun both => both.2
  · rw [removed]
    show tag ∈ tagsOf (s.entries.erase elem) key ↔ _
    rw [tagsOf_erase]
    by_cases here : elem = key
    · simp [here]
    · simp [here]

theorem mem_remove_pending (s : OrSet) (elem : Bytes) (tag : OrSetTag) :
    tag ∈ (s.remove elem).1.pendingRemoves ↔ tag ∈ s.pendingRemoves ∨ tag ∈ tagsOf s.entries elem := by
  rcases remove_cases s elem with ⟨same,none⟩ | removed
  · rw [same]
    exact ⟨.inl,fun either => either.resolve_right (none tag)⟩
  · rw [removed]
    show tag ∈ List.foldl _ s.pendingRemoves _ ↔ _
    rw [mem_foldl_insert,ExtTreeSet.mem_toList]

theorem seq_le_maxSeq (nodeId : UInt16) (seq : UInt32) (tags : List OrSetTag) : seq ≤ maxSeq nodeId seq tags := by
  induction tags generalizing seq with
  | nil => exact UInt32.le_refl _
  | cons tag tags ih =>
    rw [maxSeq,List.foldl_cons]
    split
    · next greater => exact UInt32.le_trans (UInt32.le_of_lt greater.2) (ih tag.sequence)
    · exact ih seq

/-- A merge changes the elements and may raise the tag counter. -/
theorem merge_rest (s : OrSet) (data : Bytes) :
    (s.merge data).1.nodeId = s.nodeId ∧ s.seq ≤ (s.merge data).1.seq ∧ (s.merge data).1.dirty = s.dirty ∧
      (s.merge data).1.pendingAdds = s.pendingAdds ∧ (s.merge data).1.pendingRemoves = s.pendingRemoves := by
  rw [OrSet.merge]
  cases decodeEntries data with
  | none => exact ⟨rfl,UInt32.le_refl _,rfl,rfl,rfl⟩
  | some incoming => exact ⟨rfl,seq_le_maxSeq _ _ _,rfl,rfl,rfl⟩

/-- What a replica hands out: nothing, or what was pending, which it then clears. -/
theorem delta_cases (s : OrSet) :
    orSet.delta s = (none,s) ∨ s.dirty = true ∧ orSet.delta s =
      (some (encodeEntries s.pendingAdds s.pendingRemoves),
        { s with dirty := false, pendingAdds := ∅, pendingRemoves := ∅ }) := by
  have sized : encodeEntries s.pendingAdds s.pendingRemoves ≠ [] := by
    simp [encodeEntries,writeU16]
  by_cases pending : s.dirty = true
  · refine .inr ⟨pending,?_⟩
    simp [orSet,OrSet.delta,pending,sized]
  · refine .inl ?_
    simp [orSet,OrSet.delta,pending]

/-- Handing out a delta keeps the set and the replica's tags to come. -/
theorem delta_rest (s : OrSet) :
    (orSet.delta s).2.nodeId = s.nodeId ∧ (orSet.delta s).2.seq = s.seq ∧ (orSet.delta s).2.entries = s.entries := by
  rcases delta_cases s with nothing | ⟨_,handed⟩
  · rw [nothing]
    exact ⟨rfl,rfl,rfl⟩
  · rw [handed]
    exact ⟨rfl,rfl,rfl⟩

/-! ### One step -/

section
variable {s : OrSetNetwork ι}

theorem added_act_add (i j : ι) (elem key : Bytes) (tag : OrSetTag) :
    Added (step orSet s (.act j (.add elem))) i key tag ↔
      Added s i key tag ∨ i = j ∧ elem = key ∧ (s.node j).nextTag = tag := by
  refine held_act i ?_
  show tag ∈ tagsOf (insertTag _ _ _) key ↔ _
  rw [mem_insertTag,or_comm]

theorem added_act_remove (i j : ι) (elem key : Bytes) (tag : OrSetTag) :
    Added (step orSet s (.act j (.remove elem))) i key tag ↔ Added s i key tag := by
  refine held_act_kept i ?_
  show tag ∈ tagsOf ((s.node j).remove elem).1.pendingAdds key ↔ _
  rw [(remove_rest (s.node j) elem).2.2]

theorem removed_act_add (i j : ι) (elem : Bytes) (tag : OrSetTag) :
    Removed (step orSet s (.act j (.add elem))) i tag ↔ Removed s i tag :=
  held_act_kept i Iff.rfl

theorem removed_act_remove (i j : ι) (elem : Bytes) (tag : OrSetTag) :
    Removed (step orSet s (.act j (.remove elem))) i tag ↔
      Removed s i tag ∨ i = j ∧ tag ∈ tagsOf (s.node j).entries elem :=
  held_act i (mem_remove_pending _ _ _)

theorem delta_pendingAdds {r : OrSet} (fits : Fits r.pendingAdds r.pendingRemoves) (key : Bytes) (tag : OrSetTag) :
    (tag ∈ tagsOf (orSet.delta r).2.pendingAdds key ∨
      ∃ d, (orSet.delta r).1 = some d ∧ tag ∈ tagsOf (carried d).entries key) ↔ tag ∈ tagsOf r.pendingAdds key := by
  rcases delta_cases r with nothing | ⟨_,handed⟩
  · simp [nothing]
  · simp [handed,mem_carried_entries fits]

theorem delta_pendingRemoves {r : OrSet} (fits : Fits r.pendingAdds r.pendingRemoves) (tag : OrSetTag) :
    (tag ∈ (orSet.delta r).2.pendingRemoves ∨
      ∃ d, (orSet.delta r).1 = some d ∧ tag ∈ (carried d).tombstones) ↔ tag ∈ r.pendingRemoves := by
  rcases delta_cases r with nothing | ⟨_,handed⟩
  · simp [nothing]
  · simp [handed,carried_tombstones fits]

/-- Handing out a delta keeps what every replica holds. -/
theorem added_emit {j : ι} (known : MergedSent s) (fits : InOrder s (.emit j)) (i : ι) (key : Bytes) (tag : OrSetTag) :
    Added (step orSet s (.emit j)) i key tag ↔ Added s i key tag :=
  held_emit known i (delta_pendingAdds fits key tag)

theorem removed_emit {j : ι} (known : MergedSent s) (fits : InOrder s (.emit j)) (i : ι) (tag : OrSetTag) :
    Removed (step orSet s (.emit j)) i tag ↔ Removed s i tag :=
  held_emit known i (delta_pendingRemoves fits tag)

theorem added_deliver {k : Nat} {d : ι × Bytes} (found : s.sent[k]? = some d) (i j : ι) (key : Bytes) (tag : OrSetTag) :
    Added (step orSet s (.deliver j k)) i key tag ↔ Added s i key tag ∨ i = j ∧ tag ∈ tagsOf (carried d.2).entries key := by
  refine held_deliver found i ?_
  show tag ∈ tagsOf ((s.node j).merge d.2).1.pendingAdds key ↔ _
  rw [(merge_rest (s.node j) d.2).2.2.2.1]

theorem removed_deliver {k : Nat} {d : ι × Bytes} (found : s.sent[k]? = some d) (i j : ι) (tag : OrSetTag) :
    Removed (step orSet s (.deliver j k)) i tag ↔ Removed s i tag ∨ i = j ∧ tag ∈ (carried d.2).tombstones := by
  refine held_deliver found i ?_
  show tag ∈ ((s.node j).merge d.2).1.pendingRemoves ↔ _
  rw [(merge_rest (s.node j) d.2).2.2.2.2]

/-- Some replica knows of the tag at the element. -/
def Known (s : OrSetNetwork ι) (key : Bytes) (tag : OrSetTag) : Prop := ∃ i, Added s i key tag

/-- Only an add makes a tag known. -/
theorem known_step {e : OrSetEvent ι} (merged : MergedSent s) (ok : InOrder s e) (key : Bytes) (tag : OrSetTag) :
    Known (step orSet s e) key tag ↔ Known s key tag ∨ ∃ j, e = .act j (.add key) ∧ (s.node j).nextTag = tag := by
  rcases e with ⟨j,elem | elem⟩ | j | ⟨j,k⟩
  · constructor
    · rintro ⟨i,added⟩
      rcases (added_act_add i j elem key tag).mp added with old | ⟨_,rfl,next⟩
      · exact .inl ⟨i,old⟩
      · exact .inr ⟨j,rfl,next⟩
    · rintro (⟨i,old⟩ | ⟨j',same,next⟩)
      · exact ⟨i,(added_act_add i j elem key tag).mpr (.inl old)⟩
      · cases same
        exact ⟨j,(added_act_add j j key key tag).mpr (.inr ⟨rfl,rfl,next⟩)⟩
  · simp [Known,added_act_remove]
  · simp [Known,added_emit merged ok]
  · cases found : s.sent[k]? with
    | none => simp [step,found]
    | some d =>
      simp only [Known,added_deliver found,reduceCtorEq,false_and,exists_false,or_false]
      constructor
      · rintro ⟨i,old | ⟨_,member⟩⟩
        · exact ⟨i,old⟩
        · exact ⟨d.1,held_of_sent found member⟩
      · rintro ⟨i,old⟩
        exact ⟨i,.inl old⟩

/-- What runs in order keep true. -/
structure Coherent (ids : ι → UInt16) (s : OrSetNetwork ι) : Prop where
  merged : MergedSent s
  own : ∀ i, (s.node i).nodeId = ids i
  clean : ∀ i, (s.node i).dirty = false → (s.node i).pendingAdds = ∅ ∧ (s.node i).pendingRemoves = ∅
  /-- An element has the tags that its replica knows of and has not seen removed. -/
  tags : ∀ i key tag, tag ∈ tagsOf (s.node i).entries key ↔ Added s i key tag ∧ ¬ Removed s i tag
  removed : ∀ i tag, Removed s i tag → ∃ key, Known s key tag
  counted : ∀ j key tag, Known s key tag → tag.nodeId = ids j → tag.sequence.toNat ≤ (s.node j).seq.toNat
  once : ∀ key key' tag, Known s key tag → Known s key' tag → key = key'

variable {ids : ι → UInt16}

theorem coherent_begin : Coherent ids (begin ids) := by
  have received : ∀ i (C : Bytes → Prop), ¬ Received (begin ids) i C := by
    rintro i C ⟨k,inside,_⟩
    exact absurd inside (Nat.not_lt_zero k)
  have added : ∀ i key tag, ¬ Added (begin ids) i key tag := by
    rintro i key tag (pending | known)
    · simp [begin,start,OrSet.new] at pending
    · exact received i _ known
  have removed : ∀ i tag, ¬ Removed (begin ids) i tag := by
    rintro i tag (pending | known)
    · simp [begin,start,OrSet.new] at pending
    · exact received i _ known
  constructor
  · intro i k member
    cases member
  · exact fun i => rfl
  · exact fun i _ => ⟨rfl,rfl⟩
  · intro i key tag
    constructor
    · intro member
      simp [begin,start,OrSet.new] at member
    · exact fun both => absurd both.1 (added i key tag)
  · exact fun i tag gone => absurd gone (removed i tag)
  · exact fun j key tag ⟨i,known⟩ => absurd known (added i key tag)
  · exact fun key key' tag ⟨i,known⟩ => absurd known (added i key tag)

theorem nextTag_sequence {i : ι} {elem : Bytes} (ok : InOrder s (.act i (.add elem))) :
    (s.node i).nextTag.sequence.toNat = (s.node i).seq.toNat + 1 := by
  have bound : (s.node i).seq.toNat + 1 < 2^32 := ok
  show ((s.node i).seq + 1).toNat = _
  rw [UInt32.toNat_add]
  exact Nat.mod_eq_of_lt bound

/-- The next tag of a replica is new. -/
theorem nextTag_fresh {i : ι} {elem : Bytes} (coherent : Coherent ids s) (ok : InOrder s (.act i (.add elem)))
    (key : Bytes) : ¬ Known s key (s.node i).nextTag := by
  intro known
  have counted := coherent.counted i key _ known (coherent.own i)
  rw [nextTag_sequence ok] at counted
  omega

/-- A replica after a step is as it was, or it took the step's change, delta or
    merge. -/
theorem node_step (e : OrSetEvent ι) (i : ι) :
    (step orSet s e).node i = s.node i ∨
      (∃ elem, e = .act i (.add elem) ∧ (step orSet s e).node i = (s.node i).add elem) ∨
      (∃ elem, e = .act i (.remove elem) ∧ (step orSet s e).node i = ((s.node i).remove elem).1) ∨
      (e = .emit i ∧ (step orSet s e).node i = (orSet.delta (s.node i)).2) ∨
      ∃ k d, e = .deliver i k ∧ s.sent[k]? = some d ∧ (step orSet s e).node i = ((s.node i).merge d.2).1 := by
  rcases node_cases e i with same | ⟨elem | elem,act,node⟩ | emitted | delivered
  · exact .inl same
  · exact .inr (.inl ⟨elem,act,node⟩)
  · exact .inr (.inr (.inl ⟨elem,act,node⟩))
  · exact .inr (.inr (.inr (.inl emitted)))
  · exact .inr (.inr (.inr (.inr delivered)))

theorem seq_step {e : OrSetEvent ι} (ok : InOrder s e) (i : ι) :
    (s.node i).seq.toNat ≤ ((step orSet s e).node i).seq.toNat := by
  rcases node_step e i with same | ⟨elem,rfl,node⟩ | ⟨elem,rfl,node⟩ | ⟨rfl,node⟩ | ⟨k,d,rfl,_,node⟩
  · rw [same]
  · rw [node]
    exact (Nat.le_succ _).trans (nextTag_sequence ok).ge
  · rw [node,(remove_rest (s.node i) elem).2.1]
  · rw [node,(delta_rest (s.node i)).2.1]
  · rw [node]
    exact UInt32.le_iff_toNat_le.mp (merge_rest (s.node i) d.2).2.1

theorem own_step (coherent : Coherent ids s) (e : OrSetEvent ι) (i : ι) :
    ((step orSet s e).node i).nodeId = ids i := by
  rw [← coherent.own i]
  rcases node_step e i with same | ⟨elem,rfl,node⟩ | ⟨elem,rfl,node⟩ | ⟨rfl,node⟩ | ⟨k,d,rfl,_,node⟩
  · rw [same]
  · rw [node]
    rfl
  · rw [node]
    exact (remove_rest (s.node i) elem).1
  · rw [node]
    exact (delta_rest (s.node i)).1
  · rw [node]
    exact (merge_rest (s.node i) d.2).1

theorem clean_step (coherent : Coherent ids s) (e : OrSetEvent ι) (i : ι)
    (quiet : ((step orSet s e).node i).dirty = false) :
    ((step orSet s e).node i).pendingAdds = ∅ ∧ ((step orSet s e).node i).pendingRemoves = ∅ := by
  have before := coherent.clean i
  rcases node_step e i with same | ⟨elem,rfl,node⟩ | ⟨elem,rfl,node⟩ | ⟨rfl,node⟩ | ⟨k,d,rfl,_,node⟩
  · rw [same] at quiet ⊢
    exact before quiet
  · rw [node] at quiet
    cases quiet
  · rw [node] at quiet ⊢
    rcases remove_cases (s.node i) elem with ⟨same,_⟩ | removed
    · rw [same] at quiet ⊢
      exact before quiet
    · rw [removed] at quiet
      cases quiet
  · rw [node] at quiet ⊢
    rcases delta_cases (s.node i) with nothing | ⟨_,handed⟩
    · rw [nothing] at quiet ⊢
      exact before quiet
    · rw [handed]
      exact ⟨rfl,rfl⟩
  · rw [node] at quiet ⊢
    obtain ⟨_,_,dirty,adds,removes⟩ := merge_rest (s.node i) d.2
    rw [adds,removes]
    exact before (dirty ▸ quiet)

theorem removed_step {e : OrSetEvent ι} (coherent : Coherent ids s) (ok : InOrder s e) (i : ι) (tag : OrSetTag)
    (gone : Removed (step orSet s e) i tag) : ∃ key, Known (step orSet s e) key tag := by
  -- A tag that was known before the step still is.
  have still : (∃ key, Known s key tag) → ∃ key, Known (step orSet s e) key tag :=
    fun ⟨key,known⟩ => ⟨key,(known_step coherent.merged ok key tag).mpr (.inl known)⟩
  apply still
  rcases e with ⟨j,elem | elem⟩ | j | ⟨j,k⟩
  · exact coherent.removed i tag ((removed_act_add i j elem tag).mp gone)
  · rcases (removed_act_remove i j elem tag).mp gone with old | ⟨_,member⟩
    · exact coherent.removed i tag old
    · exact ⟨elem,j,((coherent.tags j elem tag).mp member).1⟩
  · exact coherent.removed i tag ((removed_emit coherent.merged ok i tag).mp gone)
  · cases found : s.sent[k]? with
    | none => exact coherent.removed i tag (by simpa [step,found] using gone)
    | some d =>
      rcases (removed_deliver found i j tag).mp gone with old | ⟨_,member⟩
      · exact coherent.removed i tag old
      · exact coherent.removed d.1 tag (held_of_sent found member)

theorem once_step {e : OrSetEvent ι} (coherent : Coherent ids s) (ok : InOrder s e) (key key' : Bytes) (tag : OrSetTag)
    (known : Known (step orSet s e) key tag) (known' : Known (step orSet s e) key' tag) : key = key' := by
  rcases (known_step coherent.merged ok key tag).mp known with old | ⟨j,rfl,rfl⟩
  · rcases (known_step coherent.merged ok key' tag).mp known' with old' | ⟨j,rfl,rfl⟩
    · exact coherent.once key key' tag old old'
    · exact absurd old (nextTag_fresh coherent ok key)
  · rcases (known_step coherent.merged ok key' _).mp known' with old' | ⟨j',same,_⟩
    · exact absurd old' (nextTag_fresh coherent ok key')
    · cases same
      rfl

theorem counted_step {e : OrSetEvent ι} (distinct : Function.Injective ids) (coherent : Coherent ids s)
    (ok : InOrder s e) (j : ι) (key : Bytes) (tag : OrSetTag) (known : Known (step orSet s e) key tag)
    (owner : tag.nodeId = ids j) : tag.sequence.toNat ≤ ((step orSet s e).node j).seq.toNat := by
  rcases (known_step coherent.merged ok key tag).mp known with old | ⟨i,rfl,rfl⟩
  · exact (coherent.counted j key tag old owner).trans (seq_step ok j)
  · have same : i = j := distinct ((coherent.own i).symm.trans owner)
    subst same
    simp [step,orSet,OrSet.add,nextTag]

theorem tags_act_add {j : ι} {elem : Bytes} (coherent : Coherent ids s) (ok : InOrder s (.act j (.add elem))) (i : ι)
    (key : Bytes) (tag : OrSetTag) :
    tag ∈ tagsOf ((step orSet s (.act j (.add elem))).node i).entries key ↔
      (Added s i key tag ∨ i = j ∧ elem = key ∧ (s.node j).nextTag = tag) ∧ ¬ Removed s i tag := by
  have before := coherent.tags i key tag
  by_cases same : i = j
  · subst same
    have node : (step orSet s (.act i (.add elem))).node i = (s.node i).add elem := by simp [step,orSet]
    have fresh : (s.node i).nextTag = tag → ¬ Removed s i tag := by
      rintro rfl gone
      obtain ⟨key,known⟩ := coherent.removed i _ gone
      exact nextTag_fresh coherent ok key known
    rw [node]
    show tag ∈ tagsOf (insertTag _ _ _) key ↔ _
    rw [mem_insertTag,before]
    constructor
    · rintro (⟨here,minted⟩ | ⟨added,kept⟩)
      · exact ⟨.inr ⟨rfl,here,minted⟩,fresh minted⟩
      · exact ⟨.inl added,kept⟩
    · rintro ⟨added | ⟨_,here,minted⟩,kept⟩
      · exact .inr ⟨added,kept⟩
      · exact .inl ⟨here,minted⟩
  · simp [step,same,before]

theorem tags_act_remove {j : ι} {elem : Bytes} (coherent : Coherent ids s) (i : ι) (key : Bytes) (tag : OrSetTag) :
    tag ∈ tagsOf ((step orSet s (.act j (.remove elem))).node i).entries key ↔
      Added s i key tag ∧ ¬ (Removed s i tag ∨ i = j ∧ tag ∈ tagsOf (s.node j).entries elem) := by
  have before := coherent.tags i key tag
  by_cases same : i = j
  · subst same
    have node : (step orSet s (.act i (.remove elem))).node i = ((s.node i).remove elem).1 := by simp [step,orSet]
    have there := coherent.tags i elem tag
    -- The removed tags are at the removed element only.
    have apart : Added s i key tag → Added s i elem tag → key = elem :=
      fun added added' => coherent.once key elem tag ⟨i,added⟩ ⟨i,added'⟩
    rw [node,mem_remove_entries,before,there]
    constructor
    · rintro ⟨other,added,kept⟩
      refine ⟨added,?_⟩
      rintro (gone | ⟨_,added',_⟩)
      · exact kept gone
      · exact other (apart added added').symm
    · rintro ⟨added,kept⟩
      refine ⟨?_,added,fun gone => kept (.inl gone)⟩
      rintro rfl
      exact kept (.inr ⟨rfl,added,fun gone => kept (.inl gone)⟩)
  · simp [step,same,before]

theorem tags_deliver {j : ι} {k : Nat} {d : ι × Bytes} (coherent : Coherent ids s) (ok : InOrder s (.deliver j k))
    (found : s.sent[k]? = some d) (i : ι) (key : Bytes) (tag : OrSetTag) :
    tag ∈ tagsOf ((step orSet s (.deliver j k)).node i).entries key ↔
      (Added s i key tag ∨ i = j ∧ tag ∈ tagsOf (carried d.2).entries key) ∧
        ¬ (Removed s i tag ∨ i = j ∧ tag ∈ (carried d.2).tombstones) := by
  have before := coherent.tags i key tag
  by_cases same : i = j
  · subst same
    have node : (step orSet s (.deliver i k)).node i = ((s.node i).merge d.2).1 := by simp [step,found,orSet]
    have alive : tag ∈ tagsOf (carried d.2).entries key → tag ∈ (carried d.2).tombstones ∨ ¬ Removed s i tag := by
      intro member
      obtain ⟨e,listed,_,member⟩ := (mem_tagsOf_iff _ _ _).mp member
      exact ok d found e listed tag (ExtTreeSet.mem_toList.mpr member)
    rw [node,tag_mem_merge_carried,before]
    constructor
    · rintro ⟨⟨added,kept⟩ | member,unburied⟩
      · exact ⟨.inl added,fun gone => gone.elim kept fun buried => unburied buried.2⟩
      · refine ⟨.inr ⟨rfl,member⟩,fun gone => ?_⟩
        rcases gone with gone | ⟨_,buried⟩
        · exact ((alive member).resolve_left unburied) gone
        · exact unburied buried
    · rintro ⟨added | ⟨_,member⟩,kept⟩
      · exact ⟨.inl ⟨added,fun gone => kept (.inl gone)⟩,fun buried => kept (.inr ⟨rfl,buried⟩)⟩
      · exact ⟨.inr member,fun buried => kept (.inr ⟨rfl,buried⟩)⟩
  · simp [step,found,same,before]

theorem tags_step {e : OrSetEvent ι} (coherent : Coherent ids s) (ok : InOrder s e) (i : ι) (key : Bytes)
    (tag : OrSetTag) :
    tag ∈ tagsOf ((step orSet s e).node i).entries key ↔
      Added (step orSet s e) i key tag ∧ ¬ Removed (step orSet s e) i tag := by
  rcases e with ⟨j,elem | elem⟩ | j | ⟨j,k⟩
  · rw [added_act_add,removed_act_add]
    exact tags_act_add coherent ok i key tag
  · rw [added_act_remove,removed_act_remove]
    exact tags_act_remove coherent i key tag
  · have entries : ((step orSet s (.emit j)).node i).entries = (s.node i).entries := by
      rcases node_step (.emit j) i with same | ⟨_,absurd,_⟩ | ⟨_,absurd,_⟩ | ⟨_,node⟩ | ⟨_,_,absurd,_⟩
      · rw [same]
      · cases absurd
      · cases absurd
      · rw [node]
        exact (delta_rest (s.node i)).2.2
      · cases absurd
    rw [entries,added_emit coherent.merged ok,removed_emit coherent.merged ok]
    exact coherent.tags i key tag
  · cases found : s.sent[k]? with
    | none =>
      have same : step orSet s (.deliver j k) = s := by simp only [step,found]
      rw [same]
      exact coherent.tags i key tag
    | some d =>
      rw [added_deliver found,removed_deliver found]
      exact tags_deliver coherent ok found i key tag

theorem coherent_step {e : OrSetEvent ι} (distinct : Function.Injective ids) (coherent : Coherent ids s)
    (ok : InOrder s e) : Coherent ids (step orSet s e) where
  merged := mergedSent_step e coherent.merged
  own := own_step coherent e
  clean := clean_step coherent e
  tags := tags_step coherent ok
  removed := removed_step coherent ok
  counted := counted_step distinct coherent ok
  once := once_step coherent ok

/-! ### Whole runs -/

theorem received_congr {i j : ι} (same : SameDeltas s i j) (C : Bytes → Prop) : Received s i C ↔ Received s j C := by
  constructor
  · rintro ⟨k,inside,absorbed,holds⟩
    exact ⟨k,inside,(same k inside).mp absorbed,holds⟩
  · rintro ⟨k,inside,absorbed,holds⟩
    exact ⟨k,inside,(same k inside).mpr absorbed,holds⟩

/-- Of a replica without pending changes, what it contains is decided by the
    deltas it has seen. -/
theorem contains_of_quiet (coherent : Coherent ids s) {i : ι} (quiet : (s.node i).hasPendingDelta = false)
    (elem : Bytes) :
    (s.node i).contains elem = true ↔ ∃ tag, Received s i (fun d => tag ∈ tagsOf (carried d).entries elem) ∧
      ¬ Received s i (fun d => tag ∈ (carried d).tombstones) := by
  obtain ⟨adds,removes⟩ := coherent.clean i quiet
  rw [contains_iff]
  apply exists_congr
  intro tag
  rw [coherent.tags,Added,Removed,Held,Held,adds,removes]
  simp

end

/-- Replicas of a run in order contain the same elements once they have seen the
    same deltas. -/
theorem orSet_order_independent (ids : ι → UInt16) (distinct : Function.Injective ids) (es : List (OrSetEvent ι))
    (inOrder : Along (step orSet) InOrder (begin ids) es) : OrderIndependent (run (step orSet) (begin ids) es) := by
  have coherent : Coherent ids (run (step orSet) (begin ids) es) :=
    inOrder.run_invariant (fun _ _ held ok => coherent_step distinct held ok) coherent_begin
  intro i j quiet quiet' same elem
  rw [Bool.eq_iff_iff,contains_of_quiet coherent quiet,contains_of_quiet coherent quiet']
  simp only [received_congr same]

/-- Three replicas, with the node ids 1, 2 and 3. -/
def threeIds (i : Fin 3) : UInt16 := UInt16.ofNat (i.val + 1)

/-- The first replica adds an element and removes it, in two deltas. -/
def addThenRemove : List (OrSetEvent (Fin 3)) :=
  [.act 0 (.add [120]),.emit 0,.act 0 (.remove [120]),.emit 0]

/-- The other two merge both deltas as they were sent, the last one twice. -/
theorem orSet_order_independent_in_turn :
    OrderIndependent (run (step orSet) (begin threeIds)
      (addThenRemove ++ [.deliver 1 0,.deliver 1 1,.deliver 2 0,.deliver 2 1,.deliver 2 1])) :=
  orSet_order_independent threeIds (by decide) _ (by decide +kernel)

/-- The second replica merges the add and the remove, the third the remove and
    the add: only the third contains the element. -/
theorem differs_after_overtaking_remove : Function.Injective threeIds ∧
    ¬ OrderIndependent (run (step orSet) (begin threeIds)
      (addThenRemove ++ [.deliver 1 0,.deliver 1 1,.deliver 2 1,.deliver 2 0])) := by
  refine ⟨by decide,fun independent => ?_⟩
  have same := independent 1 2 (by decide +kernel) (by decide +kernel) (by decide +kernel) [120]
  revert same
  decide +kernel

end Rom.OrSetRuns
