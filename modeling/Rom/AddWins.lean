import Rom.Observed

/-!
Add wins. An element should be contained at a replica of an observed-remove set
exactly when an add of it has reached the replica that no remove of it there
observes (`Survives`). Under causal delivery tags stand for adds (`Linked`), and so
this holds while the tag counters do not wrap (`observed_remove`). Once a counter
wraps, a new add takes the tag of an old one, and the tombstone of the one takes
the other away (`wrapped_tag_removed`).
-/
namespace Rom.AddWins
open Std Rom.Runs Rom.Replication Rom.Causality OrSet Rom.Observed
open Rom.OrSetRuns (Change orSet OrSetNetwork Added Removed Known InOrder Coherent)
set_option linter.unusedSectionVars false

variable {ι : Type*} [DecidableEq ι]

/-- Some add of the element is not observed by any remove of it. -/
def Survives (l : List (Done ι)) (elem : Bytes) : Prop :=
  ∃ name, .add name elem ∈ l ∧ ∀ observed, .remove elem observed ∈ l → name ∉ observed

section
variable {s : Watch ι} {ids : ι → UInt16} {e : Event ι Change}

/-! ### Tags stand for adds -/

/-- The tag under which an add is made. -/
def tagOf (ids : ι → UInt16) (name : Name ι) : OrSetTag := ⟨ids name.1,UInt32.ofNat name.2⟩

/-- A remove among some changes observes an add with the tag. -/
def Observes (ids : ι → UInt16) (l : List (Done ι)) (tag : OrSetTag) : Prop :=
  ∃ elem observed name, .remove elem observed ∈ l ∧ name ∈ observed ∧ tagOf ids name = tag

/-- What causal runs keep true of changes and tags. -/
structure Linked (ids : ι → UInt16) (s : Watch ι) : Prop where
  who : ∀ i, (s.net.node i).who = i
  counted : ∀ i, (s.net.node i).set.seq.toNat = (s.net.node i).made
  reached : ∀ i o, o ∈ (s.net.node i).reached ↔ Held s.net i (fun r => o ∈ r.unsent) (fun d => o ∈ d.changes)
  adds : ∀ i key tag, tag ∈ tagsOf (s.net.node i).set.pendingAdds key ↔
    ∃ name, .add name key ∈ (s.net.node i).unsent ∧ tagOf ids name = tag
  sentAdds : ∀ (k : ℕ) (d : ι × Sent ι), s.net.sent[k]? = some d → ∀ key tag,
    tag ∈ tagsOf (carried d.2.bytes).entries key ↔ ∃ name, .add name key ∈ d.2.changes ∧ tagOf ids name = tag
  removes : ∀ i, ∀ tag ∈ (s.net.node i).set.pendingRemoves, Observes ids (s.net.node i).unsent tag
  sentRemoves : ∀ (k : ℕ) (d : ι × Sent ι), s.net.sent[k]? = some d →
    ∀ tag ∈ (carried d.2.bytes).tombstones, Observes ids d.2.changes tag
  /-- What a remove observes is removed where it was made, -/
  settled : ∀ i tag, Observes ids (s.net.node i).unsent tag → Removed (bare s) i tag
  /-- and is shown to be with the delta that carries it. -/
  shown : ∀ (k : ℕ) (d : ι × Sent ι), s.net.sent[k]? = some d → ∀ tag, Observes ids d.2.changes tag →
    Shown s k (fun d => tag ∈ (carried d.bytes).tombstones)
  numbered : ∀ i name elem, .add name elem ∈ (s.net.node i).reached → name.2 ≤ (s.net.node name.1).made
  observed : ∀ i elem observed name, .remove elem observed ∈ (s.net.node i).reached → name ∈ observed →
    Known (bare s) elem (tagOf ids name) ∧ name.2 ≤ (s.net.node name.1).made

theorem mem_addsOf (elem : Bytes) (l : List (Done ι)) (name : Name ι) : name ∈ addsOf elem l ↔ .add name elem ∈ l := by
  rw [addsOf,List.mem_filterMap]
  constructor
  · rintro ⟨o,member,found⟩
    cases o with
    | add name' e =>
      dsimp only at found
      split at found
      · next same =>
        cases found
        exact same ▸ member
      · cases found
    | remove e observed => cases found
  · intro member
    exact ⟨_,member,if_pos rfl⟩

theorem added_iff_reached (linked : Linked ids s) (i : ι) (key : Bytes) (tag : OrSetTag) :
    Added (bare s) i key tag ↔ ∃ name, .add name key ∈ (s.net.node i).reached ∧ tagOf ids name = tag := by
  rw [added_iff,Held,linked.adds,received_iff]
  simp only [linked.reached,Held,received_iff]
  constructor
  · rintro (⟨name,unsent,same⟩ | ⟨k,d,found,absorbed,brings⟩)
    · exact ⟨name,.inl unsent,same⟩
    · obtain ⟨name,carried,same⟩ := (linked.sentAdds k d found key tag).mp brings
      exact ⟨name,.inr ⟨k,d,found,absorbed,carried⟩,same⟩
  · rintro ⟨name,unsent | ⟨k,d,found,absorbed,carried⟩,same⟩
    · exact .inl ⟨name,unsent,same⟩
    · exact .inr ⟨k,d,found,absorbed,(linked.sentAdds k d found key tag).mpr ⟨name,carried,same⟩⟩

theorem removed_iff_observed (closed : Closed s) (linked : Linked ids s) (i : ι) (tag : OrSetTag) :
    Removed (bare s) i tag ↔ Observes ids (s.net.node i).reached tag := by
  constructor
  · intro removed
    rcases (removed_iff i tag).mp removed with pending | received
    · obtain ⟨elem,observed,name,unsent,rest⟩ := linked.removes i tag pending
      exact ⟨elem,observed,name,(linked.reached i _).mpr (.inl unsent),rest⟩
    · obtain ⟨k,d,found,absorbed,dead⟩ := received_iff.mp received
      obtain ⟨elem,observed,name,carried,rest⟩ := linked.sentRemoves k d found tag dead
      refine ⟨elem,observed,name,(linked.reached i _).mpr (.inr ?_),rest⟩
      exact received_iff.mpr ⟨k,d,found,absorbed,carried⟩
  · rintro ⟨elem,observed,name,reached,rest⟩
    rcases (linked.reached i _).mp reached with unsent | received
    · exact linked.settled i tag ⟨elem,observed,name,unsent,rest⟩
    · obtain ⟨k,d,found,absorbed,carried⟩ := received_iff.mp received
      have shown := linked.shown k d found tag ⟨elem,observed,name,carried,rest⟩
      exact (removed_iff i tag).mpr (.inr (received_of_shown closed absorbed shown))

/-- The changes of a replica that are not handed out after a step. -/
theorem unsent_cases {i : ι} {o : Done ι} (member : o ∈ ((Causality.step traced s e).net.node i).unsent) :
    o ∈ (s.net.node i).unsent ∨ ∃ c, e = .act i c ∧ o = (s.net.node i).done c := by
  rcases node_step s e i with same | ⟨elem,rfl,node⟩ | ⟨elem,rfl,node⟩ | ⟨rfl,node⟩ | ⟨k,d,rfl,_,node⟩
  · exact .inl (same ▸ member)
  · rw [node] at member
    rcases List.mem_append.mp member with old | new
    · exact .inl old
    · exact .inr ⟨_,rfl,List.mem_singleton.mp new⟩
  · rw [node] at member
    rcases List.mem_append.mp member with old | new
    · exact .inl old
    · exact .inr ⟨_,rfl,List.mem_singleton.mp new⟩
  · rw [node] at member
    rcases traced_delta_cases (s.net.node i) with ⟨_,nothing⟩ | ⟨_,handed⟩
    · rw [nothing] at member
      exact .inl member
    · rw [handed] at member
      cases member
  · rw [node] at member
    exact .inl member

theorem unsent_kept {i : ι} {o : Done ι} (member : o ∈ (s.net.node i).unsent) (kept : e ≠ .emit i) :
    o ∈ ((Causality.step traced s e).net.node i).unsent := by
  rcases node_step s e i with same | ⟨elem,rfl,node⟩ | ⟨elem,rfl,node⟩ | ⟨rfl,_⟩ | ⟨k,d,rfl,_,node⟩
  · rw [same]
    exact member
  · rw [node]
    exact List.mem_append_left _ member
  · rw [node]
    exact List.mem_append_left _ member
  · exact absurd rfl kept
  · rw [node]
    exact member

theorem unsent_act (i : ι) (c : Change) :
    (s.net.node i).done c ∈ ((Causality.step traced s (.act i c)).net.node i).unsent := by
  simp [Causality.step,Replication.step,traced]

theorem made_le (s : Watch ι) (e : Event ι Change) (i : ι) :
    (s.net.node i).made ≤ ((Causality.step traced s e).net.node i).made := by
  rcases node_step s e i with same | ⟨elem,rfl,node⟩ | ⟨elem,rfl,node⟩ | ⟨rfl,node⟩ | ⟨k,d,rfl,_,node⟩
  · rw [same]
  · rw [node]
    exact Nat.le_succ _
  · rw [node]
    exact Nat.le_refl _
  · rw [node,(traced_delta_rest (s.net.node i)).2.1]
  · rw [node]
    exact Nat.le_refl _

theorem who_step (linked : Linked ids s) (i : ι) : ((Causality.step traced s e).net.node i).who = i := by
  have before := linked.who i
  rcases node_step s e i with same | ⟨elem,rfl,node⟩ | ⟨elem,rfl,node⟩ | ⟨rfl,node⟩ | ⟨k,d,rfl,_,node⟩
  · rw [same]
    exact before
  · rw [node]
    exact before
  · rw [node]
    exact before
  · rw [node,(traced_delta_rest (s.net.node i)).1]
    exact before
  · rw [node]
    exact before

/-- Deltas bring a replica no tag of its own that it has not made. -/
theorem seq_merge (coherent : Coherent ids (bare s)) {k : Nat} {d : ι × Sent ι} (found : s.net.sent[k]? = some d) (i : ι) :
    ((s.net.node i).set.merge d.2.bytes).1.seq = (s.net.node i).set.seq := by
  rw [OrSet.merge]
  cases read : decodeEntries d.2.bytes with
  | none => rfl
  | some incoming =>
    refine UInt32.le_antisymm ((maxSeq_le_iff _ _ _ _).mpr ⟨UInt32.le_refl _,?_⟩) (OrSetRuns.seq_le_maxSeq _ _ _)
    intro tag member own
    obtain ⟨key,listed⟩ := (mem_allTags _ _).mp member
    have brings : tag ∈ tagsOf (carried d.2.bytes).entries key := by
      rw [carried_of_read read]
      exact listed
    have counted := coherent.counted i key tag (known_of_sent found brings) (own.trans (coherent.own i))
    exact UInt32.le_iff_toNat_le.mpr counted

theorem counted_step (coherent : Coherent ids (bare s)) (linked : Linked ids s) (room : Room s e) (i : ι) :
    ((Causality.step traced s e).net.node i).set.seq.toNat = ((Causality.step traced s e).net.node i).made := by
  rcases node_step s e i with same | ⟨elem,rfl,node⟩ | ⟨elem,rfl,node⟩ | ⟨rfl,node⟩ | ⟨k,d,rfl,found,node⟩
  · rw [same]
    exact linked.counted i
  · rw [node]
    show ((s.net.node i).set.seq + 1).toNat = (s.net.node i).made + 1
    rw [UInt32.toNat_add,← linked.counted i]
    exact Nat.mod_eq_of_lt room
  · rw [node]
    show ((s.net.node i).set.remove elem).1.seq.toNat = (s.net.node i).made
    rw [← linked.counted i,(OrSetRuns.remove_rest (s.net.node i).set elem).2.1]
  · obtain ⟨_,made,_,seq⟩ := traced_delta_rest (s.net.node i)
    rw [node,made,seq]
    exact linked.counted i
  · rw [node]
    show ((s.net.node i).set.merge d.2.bytes).1.seq.toNat = (s.net.node i).made
    rw [seq_merge coherent found,linked.counted i]

theorem reached_step (closed : Closed s) (linked : Linked ids s) (i : ι) (o : Done ι) :
    o ∈ ((Causality.step traced s e).net.node i).reached ↔
      Held (Causality.step traced s e).net i (fun r => o ∈ r.unsent) (fun d => o ∈ d.changes) := by
  have before := linked.reached i o
  rcases e with ⟨j,c⟩ | j | ⟨j,k⟩
  · have changed : o ∈ (traced.apply (s.net.node j) c).unsent ↔
        o ∈ (s.net.node j).unsent ∨ o = (s.net.node j).done c := by simp [traced]
    show _ ↔ Held (Replication.step traced s.net (.act j c)) i _ _
    rw [held_act i changed,← before]
    by_cases same : i = j
    · subst same
      simp [Causality.step,Replication.step,traced]
    · simp [Causality.step,Replication.step,same]
  · have handed : (o ∈ (traced.delta (s.net.node j)).2.unsent ∨
        ∃ d, (traced.delta (s.net.node j)).1 = some d ∧ o ∈ d.changes) ↔ o ∈ (s.net.node j).unsent := by
      rcases traced_delta_cases (s.net.node j) with ⟨_,nothing⟩ | ⟨_,handed⟩
      · simp [nothing]
      · simp [handed]
    have same : ((Causality.step traced s (.emit j)).net.node i).reached = (s.net.node i).reached := by
      by_cases same : i = j
      · subst same
        have node : (Causality.step traced s (.emit i)).net.node i = (traced.delta (s.net.node i)).2 := by
          simp [Causality.step,Replication.step]
        rw [node,(traced_delta_rest (s.net.node i)).2.2.1]
      · simp [Causality.step,Replication.step,same]
    show _ ↔ Held (Replication.step traced s.net (.emit j)) i _ _
    rw [held_emit closed.merged i handed,same]
    exact before
  · cases found : s.net.sent[k]? with
    | none => simpa [Causality.step,Replication.step,found] using before
    | some d =>
      have kept : o ∈ (traced.merge (s.net.node j) d.2).unsent ↔ o ∈ (s.net.node j).unsent := Iff.rfl
      show _ ↔ Held (Replication.step traced s.net (.deliver j k)) i _ _
      rw [held_deliver found i kept,← before]
      by_cases same : i = j
      · subst same
        simp [Causality.step,Replication.step,found,traced]
      · simp [Causality.step,Replication.step,found,same]

/-- What has reached a replica after a step had reached some replica, or is its
    own change. -/
theorem reached_cases (linked : Linked ids s) {i : ι} {o : Done ι}
    (member : o ∈ ((Causality.step traced s e).net.node i).reached) :
    (∃ j, o ∈ (s.net.node j).reached) ∨ ∃ c, e = .act i c ∧ o = (s.net.node i).done c := by
  rcases node_step s e i with same | ⟨elem,rfl,node⟩ | ⟨elem,rfl,node⟩ | ⟨rfl,node⟩ | ⟨k,d,rfl,found,node⟩
  · exact .inl ⟨i,same ▸ member⟩
  · rw [node] at member
    rcases List.mem_append.mp member with old | new
    · exact .inl ⟨i,old⟩
    · exact .inr ⟨_,rfl,List.mem_singleton.mp new⟩
  · rw [node] at member
    rcases List.mem_append.mp member with old | new
    · exact .inl ⟨i,old⟩
    · exact .inr ⟨_,rfl,List.mem_singleton.mp new⟩
  · rw [node,(traced_delta_rest (s.net.node i)).2.2.1] at member
    exact .inl ⟨i,member⟩
  · rw [node] at member
    rcases List.mem_append.mp member with old | new
    · exact .inl ⟨i,old⟩
    · exact .inl ⟨d.1,(linked.reached d.1 o).mpr (held_of_sent found new)⟩

theorem tagOf_next (coherent : Coherent ids (bare s)) (linked : Linked ids s) (i : ι) :
    tagOf ids ((s.net.node i).who,(s.net.node i).made + 1) = (s.net.node i).set.nextTag := by
  have node : (s.net.node i).set.nodeId = ids i := coherent.own i
  rw [tagOf,nextTag,linked.who,node,← linked.counted i,UInt32.ofNat_add,UInt32.ofNat_toNat]
  rfl

theorem adds_step (coherent : Coherent ids (bare s)) (linked : Linked ids s) (i : ι) (key : Bytes) (tag : OrSetTag) :
    tag ∈ tagsOf ((Causality.step traced s e).net.node i).set.pendingAdds key ↔
      ∃ name, .add name key ∈ ((Causality.step traced s e).net.node i).unsent ∧ tagOf ids name = tag := by
  have before := linked.adds i key tag
  rcases node_step s e i with same | ⟨elem,rfl,node⟩ | ⟨elem,rfl,node⟩ | ⟨rfl,node⟩ | ⟨k,d,rfl,_,node⟩
  · rw [same]
    exact before
  · rw [node]
    show tag ∈ tagsOf (insertTag _ _ _) key ↔
      ∃ name, .add name key ∈ (s.net.node i).unsent ++ [.add ((s.net.node i).who,(s.net.node i).made + 1) elem] ∧ _
    rw [mem_insertTag,before]
    have next := tagOf_next coherent linked i
    constructor
    · rintro (⟨rfl,rfl⟩ | ⟨name,unsent,same⟩)
      · exact ⟨_,List.mem_append_right _ (List.mem_singleton.mpr rfl),next⟩
      · exact ⟨name,List.mem_append_left _ unsent,same⟩
    · rintro ⟨name,member,same⟩
      rcases List.mem_append.mp member with unsent | new
      · exact .inr ⟨name,unsent,same⟩
      · cases List.mem_singleton.mp new
        exact .inl ⟨rfl,next.symm.trans same⟩
  · rw [node]
    have old : ((s.net.node i).set.remove elem).1.pendingAdds = (s.net.node i).set.pendingAdds :=
      (OrSetRuns.remove_rest (s.net.node i).set elem).2.2
    show tag ∈ tagsOf ((s.net.node i).set.remove elem).1.pendingAdds key ↔
      ∃ name, .add name key ∈ (s.net.node i).unsent ++ [.remove elem (addsOf elem (s.net.node i).reached)] ∧
        tagOf ids name = tag
    rw [old,before]
    simp
  · rw [node]
    rcases traced_delta_cases (s.net.node i) with ⟨_,nothing⟩ | ⟨_,handed⟩
    · rw [nothing]
      exact before
    · rw [handed]
      simp
  · rw [node]
    have old : ((s.net.node i).set.merge d.2.bytes).1.pendingAdds = (s.net.node i).set.pendingAdds :=
      (OrSetRuns.merge_rest (s.net.node i).set d.2.bytes).2.2.2.1
    show tag ∈ tagsOf ((s.net.node i).set.merge d.2.bytes).1.pendingAdds key ↔ _
    rw [old]
    exact before

section
variable (ordered : Ordered ids s) (linked : Linked ids s) (proper : Proper s e) (room : Room s e)
include ordered linked proper room

theorem removes_step (i : ι) (tag : OrSetTag)
    (pending : tag ∈ ((Causality.step traced s e).net.node i).set.pendingRemoves) :
    Observes ids ((Causality.step traced s e).net.node i).unsent tag := by
  rcases pendingRemoves_cases ordered.coherent pending with ⟨before,kept⟩ | ⟨elem,rfl,there⟩
  · obtain ⟨elem,observed,name,unsent,rest⟩ := linked.removes i tag before
    exact ⟨elem,observed,name,unsent_kept unsent kept,rest⟩
  · have added := ((ordered.coherent.tags i elem tag).mp there).1
    obtain ⟨name,reached,same⟩ := (added_iff_reached linked i elem tag).mp added
    exact ⟨elem,_,name,unsent_act i (.remove elem),(mem_addsOf _ _ _).mpr reached,same⟩

theorem settled_step (i : ι) (tag : OrSetTag)
    (observes : Observes ids ((Causality.step traced s e).net.node i).unsent tag) :
    Removed (bare (Causality.step traced s e)) i tag := by
  obtain ⟨elem,observed,name,member,listed,same⟩ := observes
  rcases unsent_cases member with old | ⟨c,rfl,new⟩
  · have removed := linked.settled i tag ⟨elem,observed,name,old,listed,same⟩
    exact removed_kept ordered.coherent.merged (inOrder_of_inTurn ordered proper room) removed
  · cases c with
    | add elem' => cases new
    | remove elem' =>
      cases new
      have added := (added_iff_reached linked i elem tag).mpr ⟨name,(mem_addsOf _ _ _).mp listed,same⟩
      rw [bare_step,OrSetRuns.removed_act_remove]
      by_cases removed : Removed (bare s) i tag
      · exact .inl removed
      · exact .inr ⟨rfl,(ordered.coherent.tags i elem tag).mpr ⟨added,removed⟩⟩

theorem sentAdds_step (k : ℕ) (d : ι × Sent ι) (found : (Causality.step traced s e).net.sent[k]? = some d) (key : Bytes)
    (tag : OrSetTag) :
    tag ∈ tagsOf (carried d.2.bytes).entries key ↔ ∃ name, .add name key ∈ d.2.changes ∧ tagOf ids name = tag := by
  rcases sent_new found with old | ⟨_,rfl,_,changes,bytes⟩
  · exact linked.sentAdds k d old key tag
  · rw [bytes,mem_carried_entries proper.2,changes]
    exact linked.adds d.1 key tag

theorem sentRemoves_step (k : ℕ) (d : ι × Sent ι) (found : (Causality.step traced s e).net.sent[k]? = some d)
    (tag : OrSetTag) (dead : tag ∈ (carried d.2.bytes).tombstones) : Observes ids d.2.changes tag := by
  rcases sent_new found with old | ⟨_,rfl,_,changes,bytes⟩
  · exact linked.sentRemoves k d old tag dead
  · rw [bytes,carried_tombstones proper.2] at dead
    rw [changes]
    exact linked.removes d.1 tag dead

theorem shown_step (k : ℕ) (d : ι × Sent ι) (found : (Causality.step traced s e).net.sent[k]? = some d)
    (tag : OrSetTag) (observes : Observes ids d.2.changes tag) :
    Shown (Causality.step traced s e) k (fun d => tag ∈ (carried d.bytes).tombstones) := by
  rcases sent_new found with old | ⟨rfl,rfl,emitted,changes,bytes⟩
  · exact shown_kept (linked.shown k d old tag observes) e
  · rw [changes] at observes
    have removed := (removed_iff d.1 tag).mp (linked.settled d.1 tag observes)
    refine shown_of_held ordered.closed emitted ?_ removed
    intro pending
    rw [bytes,carried_tombstones proper.2]
    exact pending

theorem numbered_step (i : ι) (name : Name ι) (elem : Bytes)
    (reached : .add name elem ∈ ((Causality.step traced s e).net.node i).reached) :
    name.2 ≤ ((Causality.step traced s e).net.node name.1).made := by
  rcases reached_cases linked reached with ⟨j,old⟩ | ⟨c,rfl,new⟩
  · exact (linked.numbered j name elem old).trans (made_le s e name.1)
  · cases c with
    | remove elem' => cases new
    | add elem' =>
      cases new
      dsimp only
      rw [linked.who i]
      simp [Causality.step,Replication.step,traced]

theorem observed_step (i : ι) (elem : Bytes) (observed : List (Name ι)) (name : Name ι)
    (reached : .remove elem observed ∈ ((Causality.step traced s e).net.node i).reached) (listed : name ∈ observed) :
    Known (bare (Causality.step traced s e)) elem (tagOf ids name) ∧
      name.2 ≤ ((Causality.step traced s e).net.node name.1).made := by
  have ok := inOrder_of_inTurn ordered proper room
  have later : Known (bare s) elem (tagOf ids name) ∧ name.2 ≤ (s.net.node name.1).made →
      Known (bare (Causality.step traced s e)) elem (tagOf ids name) ∧
        name.2 ≤ ((Causality.step traced s e).net.node name.1).made :=
    fun both => ⟨known_kept ordered.coherent.merged ok both.1,both.2.trans (made_le s e name.1)⟩
  apply later
  rcases reached_cases linked reached with ⟨j,old⟩ | ⟨c,rfl,new⟩
  · exact linked.observed j elem observed name old listed
  · cases c with
    | add elem' => cases new
    | remove elem' =>
      cases new
      have add := (mem_addsOf _ _ _).mp listed
      have added := (added_iff_reached linked i elem (tagOf ids name)).mpr ⟨name,add,rfl⟩
      exact ⟨⟨i,added⟩,linked.numbered i name elem add⟩

theorem linked_step : Linked ids (Causality.step traced s e) where
  who := who_step linked
  counted := counted_step ordered.coherent linked room
  reached := reached_step ordered.closed linked
  adds := adds_step ordered.coherent linked
  sentAdds := sentAdds_step ordered linked proper room
  removes := removes_step ordered linked proper room
  sentRemoves := sentRemoves_step ordered linked proper room
  settled := settled_step ordered linked proper room
  shown := shown_step ordered linked proper room
  numbered := numbered_step ordered linked proper room
  observed := observed_step ordered linked proper room

end

theorem linked_begin : Linked ids (begin ids) where
  who := fun i => rfl
  counted := fun i => rfl
  reached := by
    intro i o
    constructor
    · intro reached
      cases reached
    · rintro (unsent | ⟨k,merged,_⟩)
      · cases unsent
      · cases merged
  adds := by
    intro i key tag
    simp [begin,Causality.start,Replication.start,OrSet.new]
  sentAdds := fun k d found => by cases found
  removes := by
    intro i tag pending
    simp [begin,Causality.start,Replication.start,OrSet.new] at pending
  sentRemoves := fun k d found => by cases found
  settled := by
    rintro i tag ⟨elem,observed,name,unsent,_⟩
    cases unsent
  shown := fun k d found => by cases found
  numbered := by
    intro i name elem reached
    cases reached
  observed := by
    intro i elem observed name reached
    cases reached

/-- Adds that have been made under one tag are one add. -/
theorem name_of_tag (distinct : Function.Injective ids) (linked : Linked ids s) {name name' : Name ι}
    (small : name.2 ≤ (s.net.node name.1).made) (small' : name'.2 ≤ (s.net.node name'.1).made)
    (same : tagOf ids name = tagOf ids name') : name = name' := by
  have node : name.1 = name'.1 := distinct (congrArg OrSetTag.nodeId same)
  have sequence : UInt32.ofNat name.2 = UInt32.ofNat name'.2 := congrArg OrSetTag.sequence same
  have bound := (s.net.node name.1).set.seq.toNat_lt
  have bound' := (s.net.node name'.1).set.seq.toNat_lt
  rw [linked.counted] at bound bound'
  have number := congrArg UInt32.toNat sequence
  rw [UInt32.toNat_ofNat',UInt32.toNat_ofNat',Nat.mod_eq_of_lt (by omega),Nat.mod_eq_of_lt (by omega)] at number
  exact Prod.ext node number

theorem contains_iff_survives (distinct : Function.Injective ids) (ordered : Ordered ids s) (linked : Linked ids s) (i : ι)
    (elem : Bytes) : (s.net.node i).set.contains elem = true ↔ Survives (s.net.node i).reached elem := by
  have tags : ∀ tag, tag ∈ tagsOf (s.net.node i).set.entries elem ↔
      Added (bare s) i elem tag ∧ ¬ Removed (bare s) i tag := ordered.coherent.tags i elem
  rw [contains_iff]
  simp only [tags,added_iff_reached linked,removed_iff_observed ordered.closed linked]
  constructor
  · rintro ⟨tag,⟨name,added,same⟩,unobserved⟩
    exact ⟨name,added,fun observed removed listed => unobserved ⟨elem,observed,name,removed,listed,same⟩⟩
  · rintro ⟨name,added,survives⟩
    refine ⟨tagOf ids name,⟨name,added,rfl⟩,?_⟩
    rintro ⟨elem',observed,name',removed,listed,same⟩
    obtain ⟨known,small⟩ := linked.observed i elem' observed name' removed listed
    -- the observed add is the add itself, and so of the same element
    have sameName := name_of_tag distinct linked small (linked.numbered i name elem added) same
    have known' : Known (bare s) elem (tagOf ids name) := ⟨i,(added_iff_reached linked i elem _).mpr ⟨name,added,rfl⟩⟩
    have sameElem : elem' = elem := ordered.coherent.once elem' elem (tagOf ids name) (same ▸ known) known'
    subst sameElem sameName
    exact survives observed removed listed

end

/-- While tag counters do not wrap, an element is contained where an add of it has
    arrived that no remove of it that has arrived observes. -/
theorem observed_remove (ids : ι → UInt16) (distinct : Function.Injective ids) (es : List (Event ι Change))
    (ok : Along (Causality.step traced) (fun s e => Proper s e ∧ Room s e) (begin ids) es) (i : ι) (elem : Bytes) :
    ((run (Causality.step traced) (begin ids) es).net.node i).set.contains elem = true ↔
      Survives ((run (Causality.step traced) (begin ids) es).net.node i).reached elem := by
  have both : Ordered ids (run (Causality.step traced) (begin ids) es) ∧
      Linked ids (run (Causality.step traced) (begin ids) es) := by
    refine ok.run_invariant (I := fun s => Ordered ids s ∧ Linked ids s) ?_ ⟨ordered_begin,linked_begin⟩
    rintro s e ⟨ordered,linked⟩ ⟨proper,room⟩
    exact ⟨ordered_step distinct ordered proper room,linked_step ordered linked proper room⟩
  exact contains_iff_survives distinct both.1 both.2 i elem

def pairIds (i : Bool) : UInt16 := bif i then 2 else 1

def kept : Bytes := [120]

/-- An element is added, and then removed at the other replica while it is added
    once more. -/
def concurrentAdd : List (Event Bool Change) :=
  [.act false (.add kept),.emit false,.deliver true 0,.act false (.add kept),.act true (.remove kept),.emit false,
    .emit true,.deliver true 1,.deliver false 2]

theorem observed_remove_concurrent :
    Survives ((run (Causality.step traced) (begin pairIds) concurrentAdd).net.node true).reached kept :=
  (observed_remove pairIds (by decide) concurrentAdd (by decide +kernel) true kept).mp (by decide +kernel)

/-! ### Tags that come back -/

def passing : Bytes := [121]

/-- An element is added and removed again, and the delta of both is delivered. -/
def round (k : ℕ) : List (Event Bool Change) :=
  [.act false (.add passing),.act false (.remove passing),.emit false,.deliver true k]

/-- One element is added and delivered, and then there are some rounds with another. -/
def rounds : ℕ → List (Event Bool Change)
  | 0 => [.act false (.add kept),.emit false,.deliver true 0]
  | n+1 => rounds n ++ round (n+1)

/-- What is true after some rounds. -/
structure AfterRounds (n : ℕ) (s : Watch Bool) : Prop where
  nodeId : (s.net.node false).set.nodeId = 1
  seq : (s.net.node false).set.seq = UInt32.ofNat (n+1)
  pendingAdds : (s.net.node false).set.pendingAdds = ∅
  pendingRemoves : (s.net.node false).set.pendingRemoves = ∅
  passed : ∀ tag, tag ∉ tagsOf (s.net.node false).set.entries passing
  unsent : (s.net.node false).unsent = []
  length : s.net.sent.length = n+1
  pasts : s.past.length = n+1
  authors : ∀ d ∈ s.net.sent, d.1 = false
  merged : ∀ k, k ∈ s.net.merged true ↔ k < n+1
  tags : ∀ tag ∈ tagsOf (s.net.node true).set.entries kept, tag = ⟨1,1⟩
  add : .add (false,1) kept ∈ (s.net.node true).reached
  removes : ∀ elem observed, .remove elem observed ∈ (s.net.node true).reached → elem = passing

theorem fits_single {elem : Bytes} (short : elem.length < 2^16) (tag : OrSetTag) :
    Fits (insertTag ∅ elem tag) ((∅ : TagSet).insert tag) := by
  have only : ∀ e ∈ (insertTag ∅ elem tag).toList, e = (elem,(∅ : TagSet).insert tag) := by
    intro e listed
    have found := ExtTreeMap.mem_toList_iff_getElem?_eq_some.mp listed
    rw [insertTag,tagsOf_empty,ExtTreeMap.getElem?_insert] at found
    split at found
    · next same =>
      rw [LawfulEqCmp.compare_eq_iff_eq] at same
      exact Prod.ext same.symm (Option.some.inj found).symm
    · simp at found
  constructor
  · intro e listed
    rw [only e listed]
    exact short
  · intro e listed
    rw [only e listed]
    simp [ExtTreeSet.size_insert]
  · refine Nat.lt_of_le_of_lt (List.length_filter_le _ _) ?_
    rw [ExtTreeMap.length_toList,insertTag,ExtTreeMap.size_insert]
    simp
  · simp [ExtTreeSet.size_insert]

/-- The first replica within a round, when it has added and removed. -/
def atEmit (r : Traced Bool) : Traced Bool := traced.apply (traced.apply r (.add passing)) (.remove passing)

/-- What it hands out then. -/
def roundDelta (r : Traced Bool) : Sent Bool :=
  ⟨encodeEntries (atEmit r).set.pendingAdds (atEmit r).set.pendingRemoves,(atEmit r).unsent⟩

/-- The history within a round, before the delta is handed out. -/
def beforeEmit (s : Watch Bool) : Watch Bool :=
  ⟨{ s.net with node := Function.update s.net.node false (atEmit (s.net.node false)) },s.past⟩

/-- And after it is. -/
def afterEmit (s : Watch Bool) : Watch Bool :=
  ⟨{ s.net with
      node := Function.update s.net.node false
        { atEmit (s.net.node false) with
          set := { (atEmit (s.net.node false)).set with dirty := false, pendingAdds := ∅, pendingRemoves := ∅ }
          unsent := [] }
      sent := s.net.sent ++ [(false,roundDelta (s.net.node false))] },
    s.past ++ [absorbedBy (beforeEmit s).net false]⟩

section
variable {n : ℕ} {s : Watch Bool} (after : AfterRounds n s)

theorem atEmit_rest (r : Traced Bool) : (atEmit r).set.nodeId = r.set.nodeId ∧ (atEmit r).set.seq = r.set.seq + 1 ∧
    (atEmit r).set.dirty = true ∧ (atEmit r).set.pendingAdds = insertTag r.set.pendingAdds passing r.set.nextTag := by
  show ((r.set.add passing).remove passing).1.nodeId = _ ∧ ((r.set.add passing).remove passing).1.seq = _ ∧
    ((r.set.add passing).remove passing).1.dirty = _ ∧ ((r.set.add passing).remove passing).1.pendingAdds = _
  rcases OrSetRuns.remove_cases (r.set.add passing) passing with ⟨same,_⟩ | removed
  · rw [same]
    exact ⟨rfl,rfl,rfl,rfl⟩
  · rw [removed]
    exact ⟨rfl,rfl,rfl,rfl⟩

theorem atEmit_passed (r : Traced Bool) (tag : OrSetTag) : tag ∉ tagsOf (atEmit r).set.entries passing := by
  intro member
  have there : tag ∈ tagsOf ((r.set.add passing).remove passing).1.entries passing := member
  rw [OrSetRuns.mem_remove_entries] at there
  exact there.1 rfl

theorem two_acts (s : Watch Bool) :
    Causality.step traced (Causality.step traced s (.act false (.add passing))) (.act false (.remove passing)) =
      beforeEmit s := by
  simp [Causality.step,newPast,Replication.step,beforeEmit,atEmit]

theorem step_beforeEmit (s : Watch Bool) : Causality.step traced (beforeEmit s) (.emit false) = afterEmit s := by
  have node : (beforeEmit s).net.node false = atEmit (s.net.node false) := rfl
  rcases traced_delta_cases (atEmit (s.net.node false)) with ⟨clean,_⟩ | ⟨_,handed⟩
  · exact absurd (clean.symm.trans (atEmit_rest (s.net.node false)).2.2.1) Bool.false_ne_true
  · simp [Causality.step,newPast,Replication.step,node,handed,afterEmit,roundDelta]
    simp [beforeEmit]

include after

theorem atEmit_pendingRemoves : (atEmit (s.net.node false)).set.pendingRemoves =
    (∅ : TagSet).insert (s.net.node false).set.nextTag := by
  apply ExtTreeSet.ext_mem
  intro tag
  show tag ∈ (((s.net.node false).set.add passing).remove passing).1.pendingRemoves ↔ _
  rw [OrSetRuns.mem_remove_pending,OrSet.add]
  dsimp only
  rw [mem_insertTag,after.pendingRemoves,ExtTreeSet.mem_insert,LawfulEqCmp.compare_eq_iff_eq]
  simp [after.passed]

theorem atEmit_fits : Fits (atEmit (s.net.node false)).set.pendingAdds (atEmit (s.net.node false)).set.pendingRemoves := by
  rw [atEmit_pendingRemoves after,(atEmit_rest (s.net.node false)).2.2.2,after.pendingAdds]
  exact fits_single (by decide) _

theorem found_afterEmit : (afterEmit s).net.sent[n+1]? = some (false,roundDelta (s.net.node false)) := by
  show (s.net.sent ++ [_])[n+1]? = _
  rw [← after.length,List.getElem?_concat_length]

/-- The delta of a round is delivered in turn. -/
theorem round_proper : Along (Causality.step traced) Proper s (round (n+1)) := by
  refine ⟨⟨trivial,trivial⟩,⟨trivial,trivial⟩,?_⟩
  rw [two_acts]
  have node : (beforeEmit s).net.node false = atEmit (s.net.node false) := rfl
  refine ⟨⟨trivial,?_⟩,?_⟩
  · dsimp only
    rw [node]
    exact atEmit_fits after
  · rw [step_beforeEmit]
    refine ⟨⟨⟨?_,?_⟩,trivial⟩,trivial⟩
    · rintro (⟨d,found⟩ | merged)
      · rw [found_afterEmit after] at found
        cases found
      · have before := (after.merged (n+1)).mp merged
        exact absurd before (Nat.lt_irrefl _)
    · intro past found m member
      have last : (afterEmit s).past[n+1]? = some (absorbedBy (beforeEmit s).net false) := by
        show (s.past ++ [_])[n+1]? = _
        rw [← after.pasts,List.getElem?_concat_length]
      rw [last] at found
      cases found
      have inside : m < s.net.sent.length := List.mem_range.mp (List.mem_filter.mp member).1
      rw [after.length] at inside
      exact .inr ((after.merged m).mpr inside)

theorem run_round : run (Causality.step traced) s (round (n+1)) =
    ⟨{ (afterEmit s).net with
        node := Function.update (afterEmit s).net.node true
          (traced.merge (s.net.node true) (roundDelta (s.net.node false)))
        merged := Function.update s.net.merged true ((n+1) :: s.net.merged true) },(afterEmit s).past⟩ := by
  show Causality.step traced (Causality.step traced (Causality.step traced (Causality.step traced s _) _) _) _ = _
  rw [two_acts,step_beforeEmit]
  simp only [Causality.step,newPast,Replication.step,found_afterEmit after,List.append_nil]
  rfl

/-- The tags of the kept element at the other replica are those that it had, less
    the tag of the round. -/
theorem mem_kept_after (tag : OrSetTag) :
    tag ∈ tagsOf ((run (Causality.step traced) s (round (n+1))).net.node true).set.entries kept ↔
      tag ∈ tagsOf (s.net.node true).set.entries kept ∧ tag ≠ (s.net.node false).set.nextTag := by
  rw [run_round after]
  dsimp only
  rw [Function.update_self]
  show tag ∈ tagsOf ((s.net.node true).set.merge _).1.entries kept ↔ _
  rw [tag_mem_merge_carried,roundDelta,mem_carried_entries (atEmit_fits after),carried_tombstones (atEmit_fits after),
    atEmit_pendingRemoves after,(atEmit_rest (s.net.node false)).2.2.2,after.pendingAdds,mem_insertTag,
    ExtTreeSet.mem_insert,LawfulEqCmp.compare_eq_iff_eq]
  have other : passing ≠ kept := by decide
  simp [other,eq_comm]

theorem round_after : AfterRounds (n+1) (run (Causality.step traced) s (round (n+1))) where
  nodeId := by
    rw [run_round after]
    exact (atEmit_rest _).1.trans after.nodeId
  seq := by
    rw [run_round after]
    refine (atEmit_rest _).2.1.trans ?_
    rw [after.seq]
    simp
  pendingAdds := by
    rw [run_round after]
    rfl
  pendingRemoves := by
    rw [run_round after]
    rfl
  passed := by
    rw [run_round after]
    exact atEmit_passed _
  unsent := by
    rw [run_round after]
    rfl
  length := by
    rw [run_round after]
    simp [afterEmit,after.length]
  pasts := by
    rw [run_round after]
    simp [afterEmit,after.pasts]
  authors := by
    rw [run_round after]
    intro d member
    rcases List.mem_append.mp member with old | new
    · exact after.authors d old
    · rw [List.mem_singleton.mp new]
  merged := by
    intro k
    rw [run_round after]
    dsimp only
    rw [Function.update_self,List.mem_cons,after.merged]
    omega
  tags := by
    intro tag member
    exact after.tags tag ((mem_kept_after after tag).mp member).1
  add := by
    rw [run_round after]
    exact List.mem_append_left _ after.add
  removes := by
    intro elem observed member
    rw [run_round after] at member
    dsimp only at member
    rw [Function.update_self] at member
    rcases List.mem_append.mp member with old | new
    · exact after.removes elem observed old
    · have listed : .remove elem observed ∈ (atEmit (s.net.node false)).unsent := new
      simp only [atEmit,traced,after.unsent] at listed
      simp [Traced.done] at listed
      exact listed.1

end

/-- The state after the kept element is delivered. -/
def opened : Watch Bool := run (Causality.step traced) (begin pairIds) (rounds 0)

theorem after_opening : Along (Causality.step traced) Proper (begin pairIds) (rounds 0) ∧ AfterRounds 0 opened := by
  have reached : (opened.net.node true).reached = [.add (false,1) kept] := by decide +kernel
  have merged : opened.net.merged true = [0] := by decide +kernel
  have kept : (tagsOf (opened.net.node true).set.entries kept).toList = [⟨1,1⟩] := by decide +kernel
  have passed : (tagsOf (opened.net.node false).set.entries passing).isEmpty = true := by decide +kernel
  refine ⟨by decide +kernel,?_⟩
  constructor
  · decide +kernel
  · decide +kernel
  · rfl
  · rfl
  · exact (isEmpty_iff_forall _).mp passed
  · decide +kernel
  · decide +kernel
  · decide +kernel
  · decide +kernel
  · simp [merged]
  · simp [← ExtTreeSet.mem_toList,kept]
  · simp [reached]
  · simp [reached]

theorem after_rounds (n : ℕ) : Along (Causality.step traced) Proper (begin pairIds) (rounds n) ∧
    AfterRounds n (run (Causality.step traced) (begin pairIds) (rounds n)) := by
  induction n with
  | zero => exact after_opening
  | succ n ih =>
    obtain ⟨proper,after⟩ := ih
    rw [rounds,along_append,run_append]
    exact ⟨⟨proper,round_proper after⟩,round_after after⟩

/-- The round in which the first tag comes back takes the kept element away from
    the other replica with its tombstone. -/
theorem kept_removed {n : ℕ} (wrapped : UInt32.ofNat (n+1) + 1 = 1) :
    ((run (Causality.step traced) (begin pairIds) (rounds (n+1))).net.node true).set.contains kept = false := by
  obtain ⟨_,after⟩ := after_rounds n
  rw [rounds,run_append,← Bool.not_eq_true,contains_iff]
  rintro ⟨tag,member⟩
  have before := (mem_kept_after after tag).mp member
  refine before.2 ((after.tags tag before.1).trans ?_)
  rw [nextTag,after.nodeId,after.seq,wrapped]

theorem kept_survives (n : ℕ) :
    Survives ((run (Causality.step traced) (begin pairIds) (rounds n)).net.node true).reached kept := by
  obtain ⟨_,after⟩ := after_rounds n
  refine ⟨(false,1),after.add,?_⟩
  intro observed member
  exact absurd (after.removes kept observed member) (by decide)

theorem wrapped_tag_removed : Function.Injective pairIds ∧
    ∃ es : List (Event Bool Change), Along (Causality.step traced) Proper (begin pairIds) es ∧
      ((run (Causality.step traced) (begin pairIds) es).net.node true).set.contains kept = false ∧
      Survives ((run (Causality.step traced) (begin pairIds) es).net.node true).reached kept := by
  obtain ⟨n,wrapped⟩ : ∃ n : ℕ, UInt32.ofNat (n+1) + 1 = 1 := ⟨4294967295,by decide⟩
  exact ⟨by decide,rounds (n+1),(after_rounds (n+1)).1,kept_removed wrapped,kept_survives (n+1)⟩

end Rom.AddWins
