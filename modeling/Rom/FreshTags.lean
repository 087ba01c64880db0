import Rom.OrSetRuns

/-!
The tags that a node gives. A node numbers its tags with a counter, and a merge raises
the counter to the numbers of the node's own tags among the incoming elements, which
may be from before a restart. Tombstones do not raise it, but they put no tag into
the set either. So as long as the counter does not run out, no tag of the node that
the set holds anywhere is numbered above it, and the tag of the next add is new
(`tags_fresh`). In particular, the tombstones of a delta cancel an add of the same
delta only if the element, or another one with its tag, was removed after the add.
-/
namespace Rom.FreshTags
open Std Rom.Runs OrSet OrSetRuns

inductive Call where
  | add (elem : Bytes)
  | remove (elem : Bytes)
  | delta
  | merge (data : Bytes)
  deriving DecidableEq

def step (s : OrSet) : Call → OrSet
  | .add elem => s.add elem
  | .remove elem => (s.remove elem).1
  | .delta => s.delta.2
  | .merge data => (s.merge data).1

/-- The set holds the tag: at an element, or in what it has to send. -/
def Held (s : OrSet) (tag : OrSetTag) : Prop :=
  (∃ key, tag ∈ tagsOf s.entries key) ∨ (∃ key, tag ∈ tagsOf s.pendingAdds key) ∨ tag ∈ s.pendingRemoves

/-- The node's own tags are numbered up to its counter. -/
def Numbered (s : OrSet) : Prop := ∀ tag, Held s tag → tag.nodeId = s.nodeId → tag.sequence ≤ s.seq

/-- The counter has not reached its last number. -/
def Below (s : OrSet) : Prop := s.seq < 0xFFFFFFFF

instance : DecidablePred Below := fun s => inferInstanceAs (Decidable (s.seq < 0xFFFFFFFF))

/-- The call does not remove an element that shows the tag. -/
def Spares (tag : OrSetTag) (s : OrSet) : Call → Prop
  | .remove elem => tag ∉ tagsOf s.entries elem
  | _ => True

/-! ### Numbers -/

theorem seq_lt_next {s : OrSet} (below : Below s) : s.seq < s.seq + 1 := by
  rw [Below,UInt32.lt_iff_toNat_lt] at below
  have limit : (0xFFFFFFFF : UInt32).toNat = 4294967295 := rfl
  rw [limit] at below
  rw [UInt32.lt_iff_toNat_lt,UInt32.toNat_add]
  show s.seq.toNat < (s.seq.toNat + 1) % 2^32
  omega

/-- Where the own tags are numbered up to the counter, the next one is new. -/
theorem nextTag_new {s : OrSet} (below : Below s) (numbered : Numbered s) : ¬ Held s s.nextTag :=
  fun held => UInt32.not_le.mpr (seq_lt_next below) (numbered s.nextTag held rfl)

theorem nodeId_step (s : OrSet) (c : Call) : (step s c).nodeId = s.nodeId := by
  cases c with
  | add elem => rfl
  | remove elem => exact (remove_rest s elem).1
  | delta => exact (delta_rest s).1
  | merge data => exact (merge_rest s data).1

theorem seq_step {s : OrSet} (below : Below s) (c : Call) : s.seq ≤ (step s c).seq := by
  cases c with
  | add elem => exact UInt32.le_of_lt (seq_lt_next below)
  | remove elem => exact UInt32.le_of_eq (remove_rest s elem).2.1.symm
  | delta => exact UInt32.le_of_eq (delta_rest s).2.1.symm
  | merge data => exact (merge_rest s data).2.1

theorem mem_of_insertTag (m : EntryMap) (elem : Bytes) (new : OrSetTag) {key : Bytes} {tag : OrSetTag}
    (member : tag ∈ tagsOf (insertTag m elem new) key) : tag = new ∨ tag ∈ tagsOf m key := by
  rcases (mem_insertTag m elem key new tag).mp member with ⟨_,same⟩ | old
  · exact .inl same.symm
  · exact .inr old

/-- What a set holds after a call: what it held, the tag of an add, and tags that a
    merge brings with elements. -/
theorem held_step {s : OrSet} {c : Call} {tag : OrSetTag} (held : Held (step s c) tag) :
    Held s tag ∨ (∃ elem, c = .add elem ∧ tag = s.nextTag) ∨
      ∃ data, c = .merge data ∧ ∃ key, tag ∈ tagsOf (carried data).entries key := by
  cases c with
  | add elem =>
    rcases held with ⟨key,shown⟩ | ⟨key,added⟩ | removed
    · rcases mem_of_insertTag s.entries elem s.nextTag shown with rfl | old
      · exact .inr (.inl ⟨elem,rfl,rfl⟩)
      · exact .inl (.inl ⟨key,old⟩)
    · rcases mem_of_insertTag s.pendingAdds elem s.nextTag added with rfl | old
      · exact .inr (.inl ⟨elem,rfl,rfl⟩)
      · exact .inl (.inr (.inl ⟨key,old⟩))
    · exact .inl (.inr (.inr removed))
  | remove elem =>
    rcases held with ⟨key,shown⟩ | ⟨key,added⟩ | removed
    · exact .inl (.inl ⟨key,((mem_remove_entries s elem key tag).mp shown).2⟩)
    · exact .inl (.inr (.inl ⟨key,(remove_rest s elem).2.2 ▸ added⟩))
    · rcases (mem_remove_pending s elem tag).mp removed with old | shown
      · exact .inl (.inr (.inr old))
      · exact .inl (.inl ⟨elem,shown⟩)
  | delta =>
    rcases held with ⟨key,shown⟩ | sent
    · exact .inl (.inl ⟨key,(delta_rest s).2.2 ▸ shown⟩)
    · rcases delta_cases s with nothing | ⟨_,handed⟩
      · have same : s.delta.2 = s := congrArg Prod.snd nothing
        rw [step,same] at sent
        exact .inl (.inr sent)
      · have cleared : s.delta.2 = { s with dirty := false, pendingAdds := ∅, pendingRemoves := ∅ } :=
          congrArg Prod.snd handed
        rw [step,cleared] at sent
        simp at sent
  | merge data =>
    obtain ⟨_,_,_,adds,removes⟩ := merge_rest s data
    rcases held with ⟨key,shown⟩ | ⟨key,added⟩ | removed
    · rcases ((tag_mem_merge_carried s data key tag).mp shown).1 with old | brought
      · exact .inl (.inl ⟨key,old⟩)
      · exact .inr (.inr ⟨data,rfl,key,brought⟩)
    · exact .inl (.inr (.inl ⟨key,adds ▸ added⟩))
    · exact .inl (.inr (.inr (removes ▸ removed)))

/-- A merge raises the counter to the node's own tags that come with elements. -/
theorem seq_merge_carried (s : OrSet) (data : Bytes) {key : Bytes} {tag : OrSetTag}
    (brought : tag ∈ tagsOf (carried data).entries key) (own : tag.nodeId = s.nodeId) :
    tag.sequence ≤ (s.merge data).1.seq := by
  rw [OrSet.merge]
  rw [carried] at brought
  cases decoded : decodeEntries data with
  | none =>
    rw [decoded] at brought
    simp at brought
  | some incoming =>
    rw [decoded] at brought
    have raised := (maxSeq_le_iff s.nodeId s.seq _ (allTags incoming.entries)).mp (UInt32.le_refl _)
    exact raised.2 tag ((mem_allTags _ _).mpr ⟨key,brought⟩) own

theorem numbered_step {s : OrSet} (below : Below s) (numbered : Numbered s) (c : Call) : Numbered (step s c) := by
  intro tag held own
  rw [nodeId_step] at own
  rcases held_step held with old | ⟨elem,rfl,rfl⟩ | ⟨data,rfl,key,brought⟩
  · exact UInt32.le_trans (numbered tag old own) (seq_step below c)
  · exact UInt32.le_refl _
  · exact seq_merge_carried s data brought own

theorem numbered_new (n : UInt16) : Numbered (OrSet.new n) := by
  rintro tag (⟨key,shown⟩ | ⟨key,added⟩ | removed) _
  · simp [OrSet.new] at shown
  · simp [OrSet.new] at added
  · simp [OrSet.new] at removed

/-! ### What a delta cancels -/

section
variable {s : OrSet} {c : Call} {tag : OrSetTag}

theorem mem_pendingRemoves_step (kept : c ≠ .delta) :
    tag ∈ (step s c).pendingRemoves ↔ tag ∈ s.pendingRemoves ∨ ¬ Spares tag s c := by
  cases c with
  | add elem => simp [step,OrSet.add,Spares]
  | remove elem => simpa [step,Spares] using mem_remove_pending s elem tag
  | delta => exact absurd rfl kept
  | merge data => simp [step,Spares,(merge_rest s data).2.2.2.2]

theorem pendingAdds_step (kept : c ≠ .delta) {key : Bytes} (added : tag ∈ tagsOf s.pendingAdds key) :
    tag ∈ tagsOf (step s c).pendingAdds key := by
  cases c with
  | add elem => exact (mem_insertTag _ _ _ _ _).mpr (.inr added)
  | remove elem => exact (remove_rest s elem).2.2.symm ▸ added
  | delta => exact absurd rfl kept
  | merge data => exact (merge_rest s data).2.2.2.1.symm ▸ added

theorem dirty_step (kept : c ≠ .delta) (dirty : s.dirty = true) : (step s c).dirty = true := by
  cases c with
  | add elem => rfl
  | remove elem =>
    rcases remove_cases s elem with ⟨same,_⟩ | removed
    · exact (congrArg OrSet.dirty same).trans dirty
    · exact congrArg OrSet.dirty removed
  | delta => exact absurd rfl kept
  | merge data => exact (merge_rest s data).2.2.1.trans dirty

end

/-- Until the next delta, a tag becomes a tombstone only by a remove of an element
    that shows it. -/
theorem not_mem_pendingRemoves_run {calls : List Call} (kept : ∀ c ∈ calls, c ≠ .delta) {s : OrSet} {tag : OrSetTag}
    (free : tag ∉ s.pendingRemoves) : tag ∉ (run step s calls).pendingRemoves ↔ Along step (Spares tag) s calls := by
  induction calls generalizing s with
  | nil => exact iff_of_true free trivial
  | cons c calls ih =>
    have here := kept c List.mem_cons_self
    have later : ∀ c ∈ calls, c ≠ .delta := fun c member => kept c (List.mem_cons_of_mem _ member)
    by_cases spares : Spares tag s c
    · have still : tag ∉ (step s c).pendingRemoves := by
        rw [mem_pendingRemoves_step here]
        exact not_or.mpr ⟨free,not_not_intro spares⟩
      rw [run_cons,ih later still,Along]
      exact (and_iff_right spares).symm
    · -- what is to be sent as a tombstone stays so until it is sent
      have taken : tag ∈ (run step (step s c) calls).pendingRemoves :=
        run_invariant_of_forall (I := fun s : OrSet => tag ∈ s.pendingRemoves)
          (fun s c kept old => (mem_pendingRemoves_step kept).mpr (.inl old))
          later ((mem_pendingRemoves_step here).mpr (.inr spares))
      exact iff_of_false (not_not_intro taken) (fun along => spares along.1)

/-- What is added stays to be sent until the next delta. -/
theorem pending_run {calls : List Call} (kept : ∀ c ∈ calls, c ≠ .delta) {s : OrSet} {tag : OrSetTag} {key : Bytes}
    (added : tag ∈ tagsOf s.pendingAdds key) (dirty : s.dirty = true) :
    tag ∈ tagsOf (run step s calls).pendingAdds key ∧ (run step s calls).dirty = true :=
  run_invariant_of_forall (I := fun s : OrSet => tag ∈ tagsOf s.pendingAdds key ∧ s.dirty = true)
    (fun _ _ kept old => ⟨pendingAdds_step kept old.1,dirty_step kept old.2⟩) kept ⟨added,dirty⟩

/-- A delta brings a tag to every set that merges it, if it is no tombstone of it. -/
theorem delta_brings {s : OrSet} {tag : OrSetTag} {key : Bytes} (dirty : s.dirty = true)
    (added : tag ∈ tagsOf s.pendingAdds key) (free : tag ∉ s.pendingRemoves) (fits : Fits s.pendingAdds s.pendingRemoves)
    (r : OrSet) : tag ∈ tagsOf (r.merge s.delta.1).1.entries key := by
  have bytes : s.delta.1 = encodeEntries s.pendingAdds s.pendingRemoves := by
    rw [OrSet.delta,dirty]
    rfl
  rw [bytes,tag_mem_merge_carried,mem_carried_entries fits,carried_tombstones fits]
  exact ⟨.inr added,free⟩

/-- As long as the counter does not reach its last number: every own tag anywhere in
    the set is numbered up to the counter, and that of the next add is in none of the
    places. The tag of an add is among the tombstones of the next delta only if a
    later remove took it; if none did, whoever merges the delta has the tag. -/
theorem tags_fresh (n : UInt16) (calls : List Call) (below : Everywhere step Below (OrSet.new n) calls) :
    Everywhere step (fun s => s.nodeId = n ∧ Numbered s ∧ ¬ Held s s.nextTag) (OrSet.new n) calls ∧
    ∀ (before : List Call) (elem : Bytes) (after : List Call), calls = before ++ .add elem :: after →
      (∀ c ∈ after, c ≠ .delta) →
      ∀ s, s = run step (OrSet.new n) before →
        s.nextTag ∈ tagsOf (run step (OrSet.new n) calls).pendingAdds elem ∧
        (s.nextTag ∉ (run step (OrSet.new n) calls).pendingRemoves ↔ Along step (Spares s.nextTag) (s.add elem) after) ∧
        (Along step (Spares s.nextTag) (s.add elem) after →
          Fits (run step (OrSet.new n) calls).pendingAdds (run step (OrSet.new n) calls).pendingRemoves →
          ∀ r : OrSet, s.nextTag ∈ tagsOf (r.merge (run step (OrSet.new n) calls).delta.1).1.entries elem) := by
  have all : Everywhere step (fun s => s.nodeId = n ∧ Numbered s ∧ ¬ Held s s.nextTag) (OrSet.new n) calls :=
    below.carry (I := fun s => s.nodeId = n ∧ Numbered s)
      (fun s c small invariant => ⟨(nodeId_step s c).trans invariant.1,numbered_step small invariant.2 c⟩)
      (fun s small invariant => ⟨invariant.1,invariant.2,nextTag_new small invariant.2⟩) ⟨rfl,numbered_new n⟩
  refine ⟨all,?_⟩
  rintro before elem after rfl kept s rfl
  have new := all.append.last.2.2
  have free : (run step (OrSet.new n) before).nextTag ∉ ((run step (OrSet.new n) before).add elem).pendingRemoves :=
    fun removed => new (.inr (.inr removed))
  have added : (run step (OrSet.new n) before).nextTag ∈
      tagsOf ((run step (OrSet.new n) before).add elem).pendingAdds elem :=
    (mem_insertTag _ _ _ _ _).mpr (.inl ⟨rfl,rfl⟩)
  have ended : run step (OrSet.new n) (before ++ .add elem :: after) =
      run step ((run step (OrSet.new n) before).add elem) after := by
    rw [run_append]
    rfl
  obtain ⟨pending,dirty⟩ := pending_run kept added rfl
  have spared := not_mem_pendingRemoves_run kept free
  rw [ended]
  exact ⟨pending,spared,fun along fits r => delta_brings dirty pending (spared.mpr along) fits r⟩

/-- A set that was restarted takes in a snapshot with an old tag of its own; then an
    element is removed and added again for one delta. -/
def restarted : List Call :=
  [.merge (encodeEntries (insertTag ∅ [120] ⟨3,9⟩) ∅),.remove [120],.add [120]]

theorem tags_fresh_restarted :
    (run step (OrSet.new 3) restarted).seq = 10 ∧ (⟨3,9⟩ : OrSetTag) ∈ (run step (OrSet.new 3) restarted).pendingRemoves ∧
      (⟨3,10⟩ : OrSetTag) ∉ (run step (OrSet.new 3) restarted).pendingRemoves := by
  have fresh := (tags_fresh 3 restarted (by decide +kernel)).2
    [.merge (encodeEntries (insertTag ∅ [120] ⟨3,9⟩) ∅),.remove [120]] [120] [] rfl (by simp) _ rfl
  have tag : (run step (OrSet.new 3) [.merge (encodeEntries (insertTag ∅ [120] ⟨3,9⟩) ∅),.remove [120]]).nextTag =
      ⟨3,10⟩ := by
    decide +kernel
  rw [tag] at fresh
  exact ⟨by decide +kernel,by decide +kernel,fresh.2.1.mpr trivial⟩

end Rom.FreshTags
