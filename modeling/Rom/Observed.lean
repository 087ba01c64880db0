import Rom.OrSetRuns
import Rom.Causality

/-!
Replicas of one observed-remove set that keep track of their changes. They add,
remove, hand out deltas and merge each delta once and in causal order. Each change
is kept as it was made: an add under a name of its own, a remove with the adds
that it observes, which are those of its element that had reached the replica
(`Done`). While the tag counters do not wrap, a causal delivery brings no tag that
its receiver has seen removed (`inOrder_of_inTurn`), which the order of the
tombstones in the deltas carries (`Ordered`).
-/
namespace Rom.Observed
open Std Rom.Runs Rom.Replication Rom.Causality OrSet
open Rom.OrSetRuns (Change orSet OrSetNetwork Added Removed Known InOrder Coherent)
set_option linter.unusedSectionVars false

variable {ι : Type*} [DecidableEq ι]

/-- The name of an add: the replica that made it, and its number there. -/
abbrev Name (ι : Type*) := ι × ℕ

/-- A change that was made. -/
inductive Done (ι : Type*) where
  | add (name : Name ι) (elem : Bytes)
  | remove (elem : Bytes) (observed : List (Name ι))
  deriving DecidableEq

/-- The names of the adds of an element. -/
def addsOf (elem : Bytes) (l : List (Done ι)) : List (Name ι) :=
  l.filterMap (fun
    | .add name e => if e = elem then some name else none
    | .remove _ _ => none)

/-- A replica with the changes that have reached it and those of its own that it
    has not handed out. -/
structure Traced (ι : Type*) where
  set : OrSet
  who : ι
  made : ℕ := 0
  reached : List (Done ι) := []
  unsent : List (Done ι) := []

/-- A delta with the changes that it carries. -/
structure Sent (ι : Type*) where
  bytes : Bytes
  changes : List (Done ι)

/-- The change as it is made at a replica. -/
def Traced.done (r : Traced ι) : Change → Done ι
  | .add elem => .add (r.who,r.made + 1) elem
  | .remove elem => .remove elem (addsOf elem r.reached)

/-- The set as an object that keeps track of changes. -/
def traced : Object (Traced ι) Change (Sent ι) where
  apply r c :=
    { r with
      set := orSet.apply r.set c
      made := match c with
        | .add _ => r.made + 1
        | .remove _ => r.made
      reached := r.reached ++ [r.done c]
      unsent := r.unsent ++ [r.done c] }
  delta r :=
    match (orSet.delta r.set).1 with
    | none => (none,{ r with set := (orSet.delta r.set).2 })
    | some bytes => (some ⟨bytes,r.unsent⟩,{ r with set := (orSet.delta r.set).2, unsent := [] })
  merge r d := { r with set := orSet.merge r.set d.bytes, reached := r.reached ++ d.changes }

abbrev Watch (ι : Type*) := History ι (Traced ι) (Sent ι)

/-- Every replica as it is constructed. -/
def begin (ids : ι → UInt16) : Watch ι := Causality.start (fun i => { set := .new (ids i), who := i })

/-- Deltas are delivered once and in causal order, and fit their format. -/
def Proper (s : Watch ι) (e : Event ι Change) : Prop :=
  InTurn s e ∧ match e with
    | .emit i => Fits (s.net.node i).set.pendingAdds (s.net.node i).set.pendingRemoves
    | _ => True

/-- An add does not wrap the tag counter. -/
def Room (s : Watch ι) : Event ι Change → Prop
  | .act i (.add _) => (s.net.node i).set.seq.toNat + 1 < 2^32
  | _ => True

instance (s : Watch ι) (e : Event ι Change) : Decidable (Proper s e) :=
  match e with
  | .act i c => inferInstanceAs (Decidable (InTurn s (.act i c) ∧ True))
  | .emit i => inferInstanceAs (Decidable (InTurn s (.emit i) ∧ Fits _ _))
  | .deliver i k => inferInstanceAs (Decidable (InTurn s (.deliver i k) ∧ True))

instance (s : Watch ι) (e : Event ι Change) : Decidable (Room s e) :=
  match e with
  | .act i (.add _) => inferInstanceAs (Decidable ((s.net.node i).set.seq.toNat + 1 < 2^32))
  | .act _ (.remove _) => isTrue trivial
  | .emit _ => isTrue trivial
  | .deliver _ _ => isTrue trivial

/-! ### The replicas without their changes -/

/-- The network of the sets alone. -/
def bare (s : Watch ι) : OrSetNetwork ι := s.net.map Traced.set Sent.bytes

theorem follows : Follows (traced (ι := ι)) orSet Traced.set Sent.bytes where
  apply := fun _ _ => rfl
  delta := by
    intro r
    rw [traced]
    dsimp only
    cases handed : (orSet.delta r.set).1 with
    | none => exact Prod.ext handed rfl
    | some bytes => exact Prod.ext handed rfl
  merge := fun _ _ => rfl

theorem bare_step (s : Watch ι) (e : Event ι Change) :
    bare (Causality.step traced s e) = Replication.step orSet (bare s) e := map_step follows s.net e

/-- What a replica hands out: nothing, or what was pending with the changes behind
    it, which it then clears. -/
theorem traced_delta_cases (r : Traced ι) :
    r.set.dirty = false ∧ traced.delta r = (none,r) ∨ r.set.dirty = true ∧ traced.delta r =
      (some ⟨encodeEntries r.set.pendingAdds r.set.pendingRemoves,r.unsent⟩,
        { r with set := { r.set with dirty := false, pendingAdds := ∅, pendingRemoves := ∅ }, unsent := [] }) := by
  have sized : encodeEntries r.set.pendingAdds r.set.pendingRemoves ≠ [] := by
    simp [encodeEntries,writeU16]
  cases dirty : r.set.dirty with
  | false => exact .inl ⟨rfl,by simp [traced,orSet,OrSet.delta,dirty]⟩
  | true => exact .inr ⟨rfl,by simp [traced,orSet,OrSet.delta,dirty,sized]⟩

theorem traced_delta_rest (r : Traced ι) :
    (traced.delta r).2.who = r.who ∧ (traced.delta r).2.made = r.made ∧ (traced.delta r).2.reached = r.reached ∧
      (traced.delta r).2.set.seq = r.set.seq := by
  rcases traced_delta_cases r with ⟨_,nothing⟩ | ⟨_,handed⟩
  · rw [nothing]
    exact ⟨rfl,rfl,rfl,rfl⟩
  · rw [handed]
    exact ⟨rfl,rfl,rfl,rfl⟩

section
variable {s : Watch ι} {ids : ι → UInt16} {e : Event ι Change}

theorem added_iff (i : ι) (key : Bytes) (tag : OrSetTag) :
    Added (bare s) i key tag ↔
      Held s.net i (fun r => tag ∈ tagsOf r.set.pendingAdds key) (fun d => tag ∈ tagsOf (carried d.bytes).entries key) :=
  held_map s.net i _ _

theorem removed_iff (i : ι) (tag : OrSetTag) :
    Removed (bare s) i tag ↔
      Held s.net i (fun r => tag ∈ r.set.pendingRemoves) (fun d => tag ∈ (carried d.bytes).tombstones) :=
  held_map s.net i _ _

/-- What a replica knows of, it knows of after a step. -/
theorem added_kept (merged : MergedSent (bare s)) (ok : InOrder (bare s) e) {i : ι} {key : Bytes} {tag : OrSetTag}
    (added : Added (bare s) i key tag) : Added (bare (Causality.step traced s e)) i key tag := by
  rw [bare_step]
  rcases e with ⟨j,elem | elem⟩ | j | ⟨j,k⟩
  · exact (OrSetRuns.added_act_add i j elem key tag).mpr (.inl added)
  · exact (OrSetRuns.added_act_remove i j elem key tag).mpr added
  · exact (OrSetRuns.added_emit merged ok i key tag).mpr added
  · cases found : (bare s).sent[k]? with
    | none => simpa [Replication.step,found] using added
    | some d => exact (OrSetRuns.added_deliver found i j key tag).mpr (.inl added)

theorem removed_kept (merged : MergedSent (bare s)) (ok : InOrder (bare s) e) {i : ι} {tag : OrSetTag}
    (removed : Removed (bare s) i tag) : Removed (bare (Causality.step traced s e)) i tag := by
  rw [bare_step]
  rcases e with ⟨j,elem | elem⟩ | j | ⟨j,k⟩
  · exact (OrSetRuns.removed_act_add i j elem tag).mpr removed
  · exact (OrSetRuns.removed_act_remove i j elem tag).mpr (.inl removed)
  · exact (OrSetRuns.removed_emit merged ok i tag).mpr removed
  · cases found : (bare s).sent[k]? with
    | none => simpa [Replication.step,found] using removed
    | some d => exact (OrSetRuns.removed_deliver found i j tag).mpr (.inl removed)

theorem known_kept (merged : MergedSent (bare s)) (ok : InOrder (bare s) e) {key : Bytes} {tag : OrSetTag}
    (known : Known (bare s) key tag) : Known (bare (Causality.step traced s e)) key tag := by
  obtain ⟨i,added⟩ := known
  exact ⟨i,added_kept merged ok added⟩

/-- A delta that was handed out brings tags that its author knows of. -/
theorem known_of_sent {k : Nat} {d : ι × Sent ι} (found : s.net.sent[k]? = some d) {key : Bytes} {tag : OrSetTag}
    (brings : tag ∈ tagsOf (carried d.2.bytes).entries key) : Known (bare s) key tag :=
  ⟨d.1,(added_iff d.1 key tag).mpr (held_of_sent found brings)⟩

/-- A step gives a replica the change, the delta or the merge, or leaves it. -/
theorem node_step (s : Watch ι) (e : Event ι Change) (i : ι) :
    (Causality.step traced s e).net.node i = s.net.node i ∨
      (∃ elem, e = .act i (.add elem) ∧
        (Causality.step traced s e).net.node i = traced.apply (s.net.node i) (.add elem)) ∨
      (∃ elem, e = .act i (.remove elem) ∧
        (Causality.step traced s e).net.node i = traced.apply (s.net.node i) (.remove elem)) ∨
      (e = .emit i ∧ (Causality.step traced s e).net.node i = (traced.delta (s.net.node i)).2) ∨
      ∃ k d, e = .deliver i k ∧ s.net.sent[k]? = some d ∧
        (Causality.step traced s e).net.node i = traced.merge (s.net.node i) d.2 := by
  rcases node_cases e i with same | ⟨elem | elem,act,node⟩ | emitted | delivered
  · exact .inl same
  · exact .inr (.inl ⟨elem,act,node⟩)
  · exact .inr (.inr (.inl ⟨elem,act,node⟩))
  · exact .inr (.inr (.inr (.inl emitted)))
  · exact .inr (.inr (.inr (.inr delivered)))

/-! ### Causal deliveries bring no removed tags -/

/-- What causal runs keep true of tags: a removed tag is one that the replica knows
    of, and a tag is pending or in one delta. -/
structure Ordered (ids : ι → UInt16) (s : Watch ι) : Prop where
  closed : Closed s
  coherent : Coherent ids (bare s)
  own : ∀ i key tag, tag ∈ tagsOf (s.net.node i).set.pendingAdds key → tag.nodeId = ids i
  pendingRemoves : ∀ i, ∀ tag ∈ (s.net.node i).set.pendingRemoves, ∃ key, Added (bare s) i key tag
  tombstones : ∀ (k : ℕ) (d : ι × Sent ι), s.net.sent[k]? = some d → ∀ tag ∈ (carried d.2.bytes).tombstones,
    ∃ key, Shown s k (fun d => tag ∈ tagsOf (carried d.bytes).entries key)
  sent : ∀ (k : ℕ) (d : ι × Sent ι) key tag, s.net.sent[k]? = some d → tag ∈ tagsOf (carried d.2.bytes).entries key →
    ∀ i key', tag ∉ tagsOf (s.net.node i).set.pendingAdds key'
  once : ∀ (k : ℕ) (d : ι × Sent ι) key (k' : ℕ) (d' : ι × Sent ι) key' tag,
    s.net.sent[k]? = some d → tag ∈ tagsOf (carried d.2.bytes).entries key →
    s.net.sent[k']? = some d' → tag ∈ tagsOf (carried d'.2.bytes).entries key' → k = k'

theorem added_of_removed (ordered : Ordered ids s) {i : ι} {tag : OrSetTag} (removed : Removed (bare s) i tag) :
    ∃ key, Added (bare s) i key tag := by
  rcases (removed_iff i tag).mp removed with pending | received
  · exact ordered.pendingRemoves i tag pending
  · obtain ⟨k,d,found,absorbed,dead⟩ := received_iff.mp received
    obtain ⟨key,shown⟩ := ordered.tombstones k d found tag dead
    exact ⟨key,(added_iff i key tag).mpr (.inr (received_of_shown ordered.closed absorbed shown))⟩

/-- A replica that knows of a tag has absorbed the delta that brings it. -/
theorem absorbed_of_added (ordered : Ordered ids s) {k : Nat} {d : ι × Sent ι} (found : s.net.sent[k]? = some d)
    {key : Bytes} {tag : OrSetTag} (brings : tag ∈ tagsOf (carried d.2.bytes).entries key) {i : ι} {key' : Bytes}
    (added : Added (bare s) i key' tag) : Absorbed s.net i k := by
  rcases (added_iff i key' tag).mp added with pending | received
  · exact absurd pending (ordered.sent k d key tag found brings i key')
  · obtain ⟨k',d',found',absorbed,brings'⟩ := received_iff.mp received
    rw [ordered.once k d key k' d' key' tag found brings found' brings']
    exact absorbed

theorem bare_sent {k : Nat} {m : ι × Bytes} (found : (bare s).sent[k]? = some m) :
    ∃ d, s.net.sent[k]? = some d ∧ m = (d.1,d.2.bytes) := by
  have mapped : (bare s).sent[k]? = s.net.sent[k]?.map (fun d => (d.1,d.2.bytes)) := List.getElem?_map ..
  rw [mapped] at found
  obtain ⟨d,at_k,rfl⟩ := Option.map_eq_some_iff.mp found
  exact ⟨d,at_k,rfl⟩

theorem inOrder_of_inTurn (ordered : Ordered ids s) (proper : Proper s e) (room : Room s e) : InOrder (bare s) e := by
  rcases e with ⟨j,elem | elem⟩ | j | ⟨j,k⟩
  · exact room
  · trivial
  · exact proper.2
  · intro m found e listed tag member
    obtain ⟨d,at_k,rfl⟩ := bare_sent found
    refine .inr (fun removed => ?_)
    have brings : tag ∈ tagsOf (carried d.2.bytes).entries e.1 :=
      (mem_tagsOf_iff _ _ _).mpr ⟨e,listed,rfl,ExtTreeSet.mem_toList.mp member⟩
    obtain ⟨key,added⟩ := added_of_removed ordered removed
    exact proper.1.1 (absorbed_of_added ordered at_k brings added)

/-- Handing out leaves nothing pending. -/
theorem cleared (coherent : Coherent ids (bare s)) (i : ι) :
    ((Causality.step traced s (.emit i)).net.node i).set.pendingAdds = ∅ ∧
      ((Causality.step traced s (.emit i)).net.node i).set.pendingRemoves = ∅ := by
  have node : (Causality.step traced s (.emit i)).net.node i = (traced.delta (s.net.node i)).2 := by
    simp [Causality.step,Replication.step]
  rw [node]
  rcases traced_delta_cases (s.net.node i) with ⟨clean,nothing⟩ | ⟨_,handed⟩
  · rw [nothing]
    exact coherent.clean i clean
  · rw [handed]
    exact ⟨rfl,rfl⟩

/-- What is pending after a step was pending, and not handed out, or is new. -/
theorem pendingAdds_cases (coherent : Coherent ids (bare s)) {i : ι} {key : Bytes} {tag : OrSetTag}
    (member : tag ∈ tagsOf ((Causality.step traced s e).net.node i).set.pendingAdds key) :
    tag ∈ tagsOf (s.net.node i).set.pendingAdds key ∧ e ≠ .emit i ∨
      e = .act i (.add key) ∧ tag = (s.net.node i).set.nextTag := by
  have kept : e ≠ .emit i := by
    rintro rfl
    rw [(cleared coherent i).1] at member
    simp at member
  rcases node_step s e i with same | ⟨elem,rfl,node⟩ | ⟨elem,rfl,node⟩ | ⟨rfl,_⟩ | ⟨k,d,rfl,_,node⟩
  · rw [same] at member
    exact .inl ⟨member,kept⟩
  · rw [node] at member
    rcases (mem_insertTag _ _ _ _ _).mp member with ⟨rfl,rfl⟩ | old
    · exact .inr ⟨rfl,rfl⟩
    · exact .inl ⟨old,kept⟩
  · rw [node] at member
    have old : ((s.net.node i).set.remove elem).1.pendingAdds = (s.net.node i).set.pendingAdds :=
      (OrSetRuns.remove_rest (s.net.node i).set elem).2.2
    exact .inl ⟨old ▸ member,kept⟩
  · exact absurd rfl kept
  · rw [node] at member
    have old : ((s.net.node i).set.merge d.2.bytes).1.pendingAdds = (s.net.node i).set.pendingAdds :=
      (OrSetRuns.merge_rest (s.net.node i).set d.2.bytes).2.2.2.1
    exact .inl ⟨old ▸ member,kept⟩

theorem pendingRemoves_cases (coherent : Coherent ids (bare s)) {i : ι} {tag : OrSetTag}
    (member : tag ∈ ((Causality.step traced s e).net.node i).set.pendingRemoves) :
    tag ∈ (s.net.node i).set.pendingRemoves ∧ e ≠ .emit i ∨
      ∃ elem, e = .act i (.remove elem) ∧ tag ∈ tagsOf (s.net.node i).set.entries elem := by
  have kept : e ≠ .emit i := by
    rintro rfl
    rw [(cleared coherent i).2] at member
    simp at member
  rcases node_step s e i with same | ⟨elem,rfl,node⟩ | ⟨elem,rfl,node⟩ | ⟨rfl,_⟩ | ⟨k,d,rfl,_,node⟩
  · rw [same] at member
    exact .inl ⟨member,kept⟩
  · rw [node] at member
    exact .inl ⟨member,kept⟩
  · rw [node] at member
    rcases (OrSetRuns.mem_remove_pending _ _ _).mp member with old | there
    · exact .inl ⟨old,kept⟩
    · exact .inr ⟨elem,rfl,there⟩
  · exact absurd rfl kept
  · rw [node] at member
    have old : ((s.net.node i).set.merge d.2.bytes).1.pendingRemoves = (s.net.node i).set.pendingRemoves :=
      (OrSetRuns.merge_rest (s.net.node i).set d.2.bytes).2.2.2.2
    exact .inl ⟨old ▸ member,kept⟩

/-- A new delta carries what was pending. -/
theorem sent_new {k : Nat} {d : ι × Sent ι} (found : (Causality.step traced s e).net.sent[k]? = some d) :
    s.net.sent[k]? = some d ∨ k = s.net.sent.length ∧ e = .emit d.1 ∧
      (traced.delta (s.net.node d.1)).1 = some d.2 ∧ d.2.changes = (s.net.node d.1).unsent ∧
      d.2.bytes = encodeEntries (s.net.node d.1).set.pendingAdds (s.net.node d.1).set.pendingRemoves := by
  rcases sent_cases found with old | ⟨new,emit,emitted⟩
  · exact .inl old
  · refine .inr ⟨new,emit,emitted,?_⟩
    rcases traced_delta_cases (s.net.node d.1) with ⟨_,nothing⟩ | ⟨_,handed⟩
    · rw [nothing] at emitted
      cases emitted
    · rw [handed] at emitted
      have same : Sent.mk _ _ = d.2 := Option.some.inj emitted
      rw [← same]
      exact ⟨rfl,rfl⟩

section
variable (distinct : Function.Injective ids) (ordered : Ordered ids s) (proper : Proper s e) (room : Room s e)
include distinct ordered proper room

theorem fresh_of_sent {k : Nat} {d : ι × Sent ι} (found : s.net.sent[k]? = some d) {key elem : Bytes} {i : ι}
    (add : e = .act i (.add elem)) : (s.net.node i).set.nextTag ∉ tagsOf (carried d.2.bytes).entries key := by
  subst add
  intro brings
  exact OrSetRuns.nextTag_fresh ordered.coherent (inOrder_of_inTurn ordered proper room) key (known_of_sent found brings)

theorem sent_step (k : ℕ) (d : ι × Sent ι) (key : Bytes) (tag : OrSetTag)
    (found : (Causality.step traced s e).net.sent[k]? = some d)
    (brings : tag ∈ tagsOf (carried d.2.bytes).entries key) (i : ι) (key' : Bytes) :
    tag ∉ tagsOf ((Causality.step traced s e).net.node i).set.pendingAdds key' := by
  intro pending
  rcases sent_new found with old | ⟨_,rfl,_,_,bytes⟩
  · rcases pendingAdds_cases ordered.coherent pending with ⟨before,_⟩ | ⟨add,rfl⟩
    · exact ordered.sent k d key tag old brings i key' before
    · exact fresh_of_sent distinct ordered proper room old add brings
  · rw [bytes,mem_carried_entries proper.2] at brings
    rcases pendingAdds_cases ordered.coherent pending with ⟨before,other⟩ | ⟨absurd,_⟩
    · have same : i = d.1 := distinct ((ordered.own i key' tag before).symm.trans (ordered.own d.1 key tag brings))
      exact other (by rw [same])
    · cases absurd

theorem once_step (k : ℕ) (d : ι × Sent ι) (key : Bytes) (k' : ℕ) (d' : ι × Sent ι) (key' : Bytes) (tag : OrSetTag)
    (found : (Causality.step traced s e).net.sent[k]? = some d)
    (brings : tag ∈ tagsOf (carried d.2.bytes).entries key)
    (found' : (Causality.step traced s e).net.sent[k']? = some d')
    (brings' : tag ∈ tagsOf (carried d'.2.bytes).entries key') : k = k' := by
  rcases sent_new found with old | ⟨new,rfl,_,_,bytes⟩
  · rcases sent_new found' with old' | ⟨_,rfl,_,_,bytes'⟩
    · exact ordered.once k d key k' d' key' tag old brings old' brings'
    · rw [bytes',mem_carried_entries proper.2] at brings'
      exact absurd brings' (ordered.sent k d key tag old brings d'.1 key')
  · rcases sent_new found' with old' | ⟨new',_⟩
    · rw [bytes,mem_carried_entries proper.2] at brings
      exact absurd brings (ordered.sent k' d' key' tag old' brings' d.1 key)
    · rw [new,new']

theorem tombstones_step (k : ℕ) (d : ι × Sent ι) (found : (Causality.step traced s e).net.sent[k]? = some d)
    (tag : OrSetTag) (dead : tag ∈ (carried d.2.bytes).tombstones) :
    ∃ key, Shown (Causality.step traced s e) k (fun d => tag ∈ tagsOf (carried d.bytes).entries key) := by
  rcases sent_new found with old | ⟨rfl,rfl,emitted,_,bytes⟩
  · obtain ⟨key,shown⟩ := ordered.tombstones k d old tag dead
    exact ⟨key,shown_kept shown e⟩
  · rw [bytes,carried_tombstones proper.2] at dead
    obtain ⟨key,added⟩ := ordered.pendingRemoves d.1 tag dead
    refine ⟨key,shown_of_held ordered.closed emitted ?_ ((added_iff d.1 key tag).mp added)⟩
    intro pending
    rw [bytes,mem_carried_entries proper.2]
    exact pending

theorem ordered_step : Ordered ids (Causality.step traced s e) where
  closed := closed_step ordered.closed proper.1
  coherent := by
    rw [bare_step]
    exact OrSetRuns.coherent_step distinct ordered.coherent (inOrder_of_inTurn ordered proper room)
  own := by
    intro i key tag pending
    rcases pendingAdds_cases ordered.coherent pending with ⟨before,_⟩ | ⟨_,rfl⟩
    · exact ordered.own i key tag before
    · exact ordered.coherent.own i
  pendingRemoves := by
    intro i tag pending
    have ok := inOrder_of_inTurn ordered proper room
    rcases pendingRemoves_cases ordered.coherent pending with ⟨before,_⟩ | ⟨elem,_,there⟩
    · obtain ⟨key,added⟩ := ordered.pendingRemoves i tag before
      exact ⟨key,added_kept ordered.coherent.merged ok added⟩
    · have added := ((ordered.coherent.tags i elem tag).mp there).1
      exact ⟨elem,added_kept ordered.coherent.merged ok added⟩
  tombstones := tombstones_step distinct ordered proper room
  sent := sent_step distinct ordered proper room
  once := once_step distinct ordered proper room

end

theorem ordered_begin : Ordered ids (begin ids) where
  closed := closed_start _
  coherent := OrSetRuns.coherent_begin
  own := by
    intro i key tag pending
    simp [begin,Causality.start,Replication.start,OrSet.new] at pending
  pendingRemoves := by
    intro i tag pending
    simp [begin,Causality.start,Replication.start,OrSet.new] at pending
  tombstones := fun k d found => by cases found
  sent := fun k d key tag found => by cases found
  once := fun k d key k' d' key' tag found => by cases found

end
end Rom.Observed
