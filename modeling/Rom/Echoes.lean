import Rom.Orderly

/-!
Echoes. Meshes and relays may return to a replica what it has handed out; merging
it should change nothing, however the replica has changed since. It does not for
sets: a delta that comes back after its element was removed brings the element
back (`echo_undoes_remove`). It does in every run in which no action takes back
what has been handed out: no write is stamped before the one that is held, no
count and no tag number wraps, no handed out tag is removed and no removed one is
brought back, and payloads fit their format (`echoes_absorbed`).
-/
namespace Rom.Echoes
open Std Rom.Runs
open Rom.GCounter (Has Sound Distinct carriedEntries sentEntries countOf)
open Rom.PnCounter (Side half carriedOn)
open Rom.OrSet (carried Fits Trim allTags maxSeq maxSeq_le_iff mem_allTags)

/-- A replica, with what it has handed out so far. -/
structure Echoing where
  crdt : Crdt
  produced : List Bytes

def step (s : Echoing) (action : Action) : Echoing := ⟨s.crdt.act action,s.produced ++ s.crdt.handsOut action⟩

/-- Merging what was handed out changes nothing. -/
def Undisturbed (s : Echoing) : Prop := ∀ d ∈ s.produced, (s.crdt.merge d).1 = s.crdt

/-- The remove takes out no tag that was handed out without its removal. -/
def RemovesOwn (produced : List Bytes) (elem : Bytes) : Prop :=
  ∀ d ∈ produced, ∀ tag ∈ (tagsOf (carried d).entries elem).toList, tag ∈ (carried d).tombstones

/-- A delta says what the set has: removed tags are not there, added ones are
    unless removed. -/
structure Current (s : OrSet) : Prop where
  fits : Fits s.pendingAdds s.pendingRemoves
  removed : ∀ e ∈ s.entries.toList, ∀ tag ∈ e.2.toList, tag ∉ s.pendingRemoves
  added : ∀ e ∈ s.pendingAdds.toList, ∀ tag ∈ e.2.toList, tag ∈ s.pendingRemoves ∨ tag ∈ tagsOf s.entries e.1

/-- No tag of either payload is removed by the other, unless it is also by its own. -/
def Apart (d data : Bytes) : Prop :=
  (∀ tag ∈ allTags (carried data).entries, tag ∈ (carried data).tombstones ∨ tag ∉ (carried d).tombstones) ∧
    ∀ tag ∈ allTags (carried d).entries, tag ∈ (carried d).tombstones ∨ tag ∉ (carried data).tombstones

instance (produced : List Bytes) (elem : Bytes) : Decidable (RemovesOwn produced elem) :=
  inferInstanceAs (Decidable (∀ d ∈ produced, ∀ tag ∈ (tagsOf (carried d).entries elem).toList,
    tag ∈ (carried d).tombstones))

instance (s : OrSet) : Decidable (Current s) :=
  decidable_of_iff
    (Fits s.pendingAdds s.pendingRemoves ∧ (∀ e ∈ s.entries.toList, ∀ tag ∈ e.2.toList, tag ∉ s.pendingRemoves) ∧
      ∀ e ∈ s.pendingAdds.toList, ∀ tag ∈ e.2.toList, tag ∈ s.pendingRemoves ∨ tag ∈ tagsOf s.entries e.1)
    ⟨fun ⟨fits,removed,added⟩ => ⟨fits,removed,added⟩,fun current => ⟨current.fits,current.removed,current.added⟩⟩

instance (d data : Bytes) : Decidable (Apart d data) := inferInstanceAs (Decidable (_ ∧ _))

/-- The action takes nothing back that was handed out, and what it hands out is
    read back as it is. -/
def Keeps (s : Echoing) (action : Action) : Prop :=
  match s.crdt, action with
  | .lwwRegister r, .change (.set _ ts) => r.timestamp ≤ ts
  | .gCounter c, .change (.increment amount) => c.countOf c.nodeId + amount.toNat < 2^64
  | .pnCounter c, .change (.increment amount) => c.p.countOf c.p.nodeId + amount.toNat < 2^64
  | .pnCounter c, .change (.decrement amount) => c.n.countOf c.n.nodeId + amount.toNat < 2^64
  | .pnCounter c, .delta => (sentEntries c.p).length < 2^8
  | .pnCounter c, .snapshot => c.p.entries.length < 2^8
  | .orSet set, .change (.add _) => set.seq.toNat + 1 < 2^32
  | .orSet _, .change (.remove elem) => RemovesOwn s.produced elem
  | .orSet set, .delta => set.dirty = true → Current set
  | .orSet set, .snapshot => Fits set.entries ∅
  | .orSet _, .merge data => ∀ d ∈ s.produced, Apart d data
  | _, _ => True

instance (s : Echoing) (action : Action) : Decidable (Keeps s action) := by
  unfold Keeps
  split <;> infer_instance

/-! ### Registers -/

theorem register_act {r : LwwRegister} {ds : List Bytes} {action : Action} (ok : Keeps ⟨.lwwRegister r,ds⟩ action) :
    ∃ r', Crdt.act (.lwwRegister r) action = .lwwRegister r' ∧ r.stamp ≤ r'.stamp := by
  rcases action with (⟨value,ts⟩ | ⟨amount⟩ | ⟨amount⟩ | ⟨elem⟩ | ⟨elem⟩) | _ | _ | ⟨data⟩
  · refine ⟨r.set value ts,rfl,Prod.Lex.toLex_le_toLex.mpr ?_⟩
    have le : r.timestamp.toNat ≤ ts.toNat := UInt32.le_iff_toNat_le.mp ok
    rcases Nat.lt_or_eq_of_le le with lt | same
    · exact .inl lt
    · exact .inr ⟨same,Nat.le_refl _⟩
  · exact ⟨r,rfl,le_rfl⟩
  · exact ⟨r,rfl,le_rfl⟩
  · exact ⟨r,rfl,le_rfl⟩
  · exact ⟨r,rfl,le_rfl⟩
  · refine ⟨r.delta.2,rfl,?_⟩
    rw [LwwRegister.delta]
    split
    · exact le_rfl
    · exact le_rfl
  · exact ⟨r,rfl,le_rfl⟩
  · refine ⟨(r.merge data).1,rfl,?_⟩
    rw [LwwRegister.stamp_merge]
    exact le_max_left _ _

theorem register_handsOut {r : LwwRegister} {action : Action} {d : Bytes}
    (member : d ∈ Crdt.handsOut (.lwwRegister r) action) : LwwRegister.wireStamp d = r.stamp := by
  rcases Crdt.mem_handsOut member with ⟨_,rfl,nonempty⟩ | ⟨_,rfl⟩
  · have bytes : (Crdt.lwwRegister r).delta.1 = r.encodeState := by
      show r.delta.1 = r.encodeState
      have nonempty : r.delta.1 ≠ [] := nonempty
      rw [LwwRegister.delta] at nonempty ⊢
      split
      · next clean =>
        rw [if_pos clean] at nonempty
        exact absurd rfl nonempty
      · rfl
    rw [bytes,LwwRegister.wireStamp_encodeState]
  · exact LwwRegister.wireStamp_encodeState r

/-! ### Counters -/

/-- The counter has every entry that the other has. -/
def Above (c c' : GCounter) : Prop := ∀ e, Has c e → Has c' e

theorem above_self (c : GCounter) : Above c c := fun _ has => has

theorem above_increment {c : GCounter} {amount : UInt64} (room : c.countOf c.nodeId + amount.toNat < 2^64) :
    Above c (c.increment amount) := fun _ has => GCounter.has_increment has room

theorem above_mergeEntries (c : GCounter) (l : List GCounterEntry) : Above c (GCounter.mergeEntries (c,false) l).1 :=
  fun _ has => GCounter.has_mergeEntries has l

theorem gCounter_act {c : GCounter} {ds : List Bytes} {action : Action} (ok : Keeps ⟨.gCounter c,ds⟩ action) :
    ∃ c', Crdt.act (.gCounter c) action = .gCounter c' ∧ Above c c' := by
  rcases action with (⟨value,ts⟩ | ⟨amount⟩ | ⟨amount⟩ | ⟨elem⟩ | ⟨elem⟩) | _ | _ | ⟨data⟩
  · exact ⟨c,rfl,above_self c⟩
  · exact ⟨c.increment amount,rfl,above_increment ok⟩
  · exact ⟨c,rfl,above_self c⟩
  · exact ⟨c,rfl,above_self c⟩
  · exact ⟨c,rfl,above_self c⟩
  · refine ⟨c.delta.2,rfl,?_⟩
    rw [GCounter.delta_state]
    exact above_self c
  · exact ⟨c,rfl,above_self c⟩
  · refine ⟨(c.merge data).1,rfl,?_⟩
    rw [GCounter.merge_eq]
    exact above_mergeEntries c _

theorem has_of_carried {c : GCounter} (distinct : Distinct c) {l : List GCounterEntry} (sub : ∀ e ∈ l, e ∈ c.entries) :
    ∀ e ∈ carriedEntries (GCounter.encodeEntries l), Has c e := by
  obtain ⟨S,sound⟩ := distinct
  intro e member
  rw [GCounter.carriedEntries_encode] at member
  exact GCounter.has_of_mem sound (sub e (List.mem_of_mem_take member))

theorem gCounter_handsOut {c : GCounter} {action : Action} {d : Bytes} (distinct : Distinct c)
    (member : d ∈ Crdt.handsOut (.gCounter c) action) : ∀ e ∈ carriedEntries d, Has c e := by
  rcases Crdt.mem_handsOut member with ⟨_,rfl,nonempty⟩ | ⟨_,rfl⟩
  · obtain ⟨S,sound⟩ := distinct
    have bytes : (Crdt.gCounter c).delta.1 = _ := GCounter.delta_bytes sound
    rw [bytes] at nonempty ⊢
    split at nonempty
    · next dirty =>
      rw [if_pos dirty]
      exact has_of_carried ⟨S,sound⟩ (fun e own => List.mem_of_find?_eq_some (Option.mem_toList.mp own))
    · exact absurd rfl nonempty
  · exact has_of_carried distinct (fun e member => member)

/-- Each half is above the other's. -/
def BothAbove (c c' : PnCounter) : Prop := ∀ side, Above (half side c) (half side c')

theorem bothAbove_of {c c' : PnCounter} (up : Above c.p c'.p) (down : Above c.n c'.n) : BothAbove c c' := by
  intro side
  cases side with
  | up => exact up
  | down => exact down

theorem pnCounter_act {c : PnCounter} {ds : List Bytes} {action : Action} (ok : Keeps ⟨.pnCounter c,ds⟩ action) :
    ∃ c', Crdt.act (.pnCounter c) action = .pnCounter c' ∧ BothAbove c c' := by
  have same : BothAbove c c := fun side => above_self (half side c)
  have handed : ∀ side, Above (half side c) (PnCounter.deltaHalf (half side c)).2 := by
    intro side
    rw [GCounter.deltaHalf_state]
    exact above_self _
  rcases action with (⟨value,ts⟩ | ⟨amount⟩ | ⟨amount⟩ | ⟨elem⟩ | ⟨elem⟩) | _ | _ | ⟨data⟩
  · exact ⟨c,rfl,same⟩
  · exact ⟨c.increment amount,rfl,bothAbove_of (above_increment ok) (same .down)⟩
  · exact ⟨c.decrement amount,rfl,bothAbove_of (same .up) (above_increment ok)⟩
  · exact ⟨c,rfl,same⟩
  · exact ⟨c,rfl,same⟩
  · exact ⟨c.delta.2,rfl,bothAbove_of (handed .up) (handed .down)⟩
  · exact ⟨c,rfl,same⟩
  · refine ⟨(c.merge data).1,rfl,fun side => ?_⟩
    rw [PnCounter.half_merge]
    exact above_mergeEntries _ _

theorem pnCounter_handsOut {c : PnCounter} {ds : List Bytes} {action : Action} {d : Bytes}
    (distinct : ∀ side, Distinct (half side c)) (ok : Keeps ⟨.pnCounter c,ds⟩ action)
    (member : d ∈ Crdt.handsOut (.pnCounter c) action) (side : Side) : ∀ e ∈ carriedOn side d, Has (half side c) e := by
  obtain ⟨S,soundUp⟩ : Distinct c.p := distinct .up
  obtain ⟨T,soundDown⟩ : Distinct c.n := distinct .down
  have held : ∀ l m : List GCounterEntry, l.length < 2^8 → (∀ e ∈ l, e ∈ c.p.entries) → (∀ e ∈ m, e ∈ c.n.entries) →
      ∀ e ∈ carriedOn side (GCounter.encodeEntries l ++ GCounter.encodeEntries m), Has (half side c) e := by
    intro l m few up down e member
    have read := PnCounter.mem_carriedOn_encode few member
    cases side with
    | up => exact GCounter.has_of_mem soundUp (up e read)
    | down => exact GCounter.has_of_mem soundDown (down e read)
  rcases Crdt.mem_handsOut member with ⟨rfl,rfl,_⟩ | ⟨rfl,rfl⟩
  · have bytes : (Crdt.pnCounter c).delta.1 =
        GCounter.encodeEntries (sentEntries c.p) ++ GCounter.encodeEntries (sentEntries c.n) := by
      rw [← GCounter.deltaHalf_bytes soundUp,← GCounter.deltaHalf_bytes soundDown]
      rfl
    rw [bytes]
    exact held _ _ ok (fun _ => GCounter.mem_entries_of_sent) (fun _ => GCounter.mem_entries_of_sent)
  · exact held _ _ ok (fun _ member => member) (fun _ member => member)

/-! ### Sets -/

/-- A tag of the set's own node is not numbered past its counter. -/
def Numbered (s : OrSet) (tag : OrSetTag) : Prop := tag.nodeId = s.nodeId → tag.sequence ≤ s.seq

/-- All tags of a set, and of what it is about to hand out, are numbered. -/
structure Proper (s : OrSet) : Prop where
  entries : ∀ key tag, tag ∈ tagsOf s.entries key → Numbered s tag
  adds : ∀ key tag, tag ∈ tagsOf s.pendingAdds key → Numbered s tag
  removes : ∀ tag ∈ s.pendingRemoves, Numbered s tag

/-- Everything the payload says is so in the set. -/
structure Settled (s : OrSet) (d : Bytes) : Prop where
  removed : ∀ key tag, tag ∈ (carried d).tombstones → tag ∉ tagsOf s.entries key
  added : ∀ key tag, tag ∈ tagsOf (carried d).entries key →
    tag ∈ (carried d).tombstones ∨ tag ∈ tagsOf s.entries key
  numbered : ∀ key tag, tag ∈ tagsOf (carried d).entries key → Numbered s tag
  numberedRemoves : ∀ tag ∈ (carried d).tombstones, Numbered s tag

theorem merge_of_settled {s : OrSet} {d : Bytes} (trim : Trim s.entries) (settled : Settled s d) : (s.merge d).1 = s := by
  cases read : OrSet.decodeEntries d with
  | none => rw [OrSet.merge_of_unread read]
  | some i =>
    have here := OrSet.carried_of_read read
    obtain ⟨removed,added,numbered,_⟩ := settled
    rw [here] at removed added numbered
    have entries : (s.mergeDecoded i).1.entries = s.entries := by
      apply OrSet.entries_ext (OrSet.trim_mergeDecoded s i) trim
      intro key tag
      have gone := removed key tag
      have there := added key tag
      rw [OrSet.tag_mem_merge]
      tauto
    have seq : maxSeq s.nodeId s.seq (allTags i.entries) = s.seq := by
      apply UInt32.le_antisymm
      · refine (maxSeq_le_iff _ _ _ _).mpr ⟨UInt32.le_refl _,fun tag member => ?_⟩
        obtain ⟨key,member⟩ := (mem_allTags _ _).mp member
        exact numbered key tag member
      · exact OrSetRuns.seq_le_maxSeq _ _ _
    rw [OrSet.merge_of_read read]
    exact (OrSet.mergeDecoded_eq s i).trans (by rw [entries,seq])

section
variable {s s' : OrSet}

theorem numbered_mono (node : s'.nodeId = s.nodeId) (le : s.seq ≤ s'.seq) {tag : OrSetTag} (numbered : Numbered s tag) :
    Numbered s' tag :=
  fun own => UInt32.le_trans (numbered (own.trans node)) le

/-- What settled payloads need of a change. -/
theorem settled_change {d : Bytes} (settled : Settled s d) (node : s'.nodeId = s.nodeId) (le : s.seq ≤ s'.seq)
    (gained : ∀ key tag, tag ∈ tagsOf s'.entries key → tag ∈ tagsOf s.entries key ∨ tag ∉ (carried d).tombstones)
    (lost : ∀ key tag, tag ∈ tagsOf (carried d).entries key → tag ∈ tagsOf s.entries key →
      tag ∈ (carried d).tombstones ∨ tag ∈ tagsOf s'.entries key) : Settled s' d where
  removed := by
    intro key tag dead member
    rcases gained key tag member with old | alive
    · exact settled.removed key tag dead old
    · exact alive dead
  added := by
    intro key tag member
    rcases settled.added key tag member with dead | there
    · exact .inl dead
    · exact lost key tag member there
  numbered := fun key tag member => numbered_mono node le (settled.numbered key tag member)
  numberedRemoves := fun tag member => numbered_mono node le (settled.numberedRemoves tag member)

theorem seq_add (room : s.seq.toNat + 1 < 2^32) : (s.seq + 1).toNat = s.seq.toNat + 1 := by
  rw [UInt32.toNat_add]
  exact Nat.mod_eq_of_lt room

theorem seq_le_add (room : s.seq.toNat + 1 < 2^32) : s.seq ≤ s.seq + 1 := by
  rw [UInt32.le_iff_toNat_le,seq_add room]
  exact Nat.le_succ _

theorem proper_add (proper : Proper s) (room : s.seq.toNat + 1 < 2^32) (elem : Bytes) : Proper (s.add elem) := by
  have later : ∀ {tag}, Numbered s tag → Numbered (s.add elem) tag :=
    numbered_mono (show (s.add elem).nodeId = s.nodeId from rfl) (seq_le_add room)
  have next : Numbered (s.add elem) s.nextTag := fun _ => UInt32.le_refl _
  refine ⟨?_,?_,fun tag member => later (proper.removes tag member)⟩
  · intro key tag member
    rcases (mem_insertTag _ _ _ _ _).mp member with ⟨_,rfl⟩ | old
    · exact next
    · exact later (proper.entries key tag old)
  · intro key tag member
    rcases (mem_insertTag _ _ _ _ _).mp member with ⟨_,rfl⟩ | old
    · exact next
    · exact later (proper.adds key tag old)

theorem settled_add {d : Bytes} (settled : Settled s d) (room : s.seq.toNat + 1 < 2^32) (elem : Bytes) :
    Settled (s.add elem) d := by
  have fresh : s.nextTag ∉ (carried d).tombstones := by
    intro dead
    have le : s.seq + 1 ≤ s.seq := settled.numberedRemoves s.nextTag dead rfl
    rw [UInt32.le_iff_toNat_le,seq_add room] at le
    omega
  refine settled_change settled rfl (seq_le_add room) ?_ ?_
  · intro key tag member
    rcases (mem_insertTag _ _ _ _ _).mp member with ⟨_,rfl⟩ | old
    · exact .inr fresh
    · exact .inl old
  · exact fun key tag _ there => .inr ((mem_insertTag _ _ _ _ _).mpr (.inr there))

theorem proper_remove (proper : Proper s) (elem : Bytes) : Proper (s.remove elem).1 := by
  obtain ⟨node,seq,adds⟩ := OrSetRuns.remove_rest s elem
  have later : ∀ {tag}, Numbered s tag → Numbered (s.remove elem).1 tag :=
    numbered_mono node (by rw [seq]; exact UInt32.le_refl _)
  refine ⟨?_,?_,?_⟩
  · exact fun key tag member => later (proper.entries key tag ((OrSetRuns.mem_remove_entries s elem key tag).mp member).2)
  · rw [adds]
    exact fun key tag member => later (proper.adds key tag member)
  · intro tag member
    rcases (OrSetRuns.mem_remove_pending s elem tag).mp member with old | there
    · exact later (proper.removes tag old)
    · exact later (proper.entries elem tag there)

theorem settled_remove {d elem : Bytes} (settled : Settled s d)
    (own : ∀ tag ∈ (tagsOf (carried d).entries elem).toList, tag ∈ (carried d).tombstones) :
    Settled (s.remove elem).1 d := by
  obtain ⟨node,seq,_⟩ := OrSetRuns.remove_rest s elem
  refine settled_change settled node (by rw [seq]; exact UInt32.le_refl _) ?_ ?_
  · exact fun key tag member => .inl ((OrSetRuns.mem_remove_entries s elem key tag).mp member).2
  · intro key tag member there
    by_cases here : elem = key
    · exact .inl (own tag (ExtTreeSet.mem_toList.mpr (here ▸ member)))
    · exact .inr ((OrSetRuns.mem_remove_entries s elem key tag).mpr ⟨here,there⟩)

theorem numbered_carried (s : OrSet) {data key : Bytes} {tag : OrSetTag}
    (member : tag ∈ tagsOf (carried data).entries key) :
    Numbered (s.merge data).1 tag := by
  intro own
  rw [(OrSetRuns.merge_rest s data).1] at own
  rw [carried] at member
  rw [OrSet.merge]
  cases read : OrSet.decodeEntries data with
  | none =>
    rw [read] at member
    simp at member
  | some i =>
    rw [read] at member
    exact ((maxSeq_le_iff _ _ _ _).mp (UInt32.le_refl _)).2 tag ((mem_allTags _ _).mpr ⟨key,member⟩) own

theorem proper_merge (proper : Proper s) (data : Bytes) : Proper (s.merge data).1 := by
  obtain ⟨node,seq,_,adds,removes⟩ := OrSetRuns.merge_rest s data
  have later : ∀ {tag}, Numbered s tag → Numbered (s.merge data).1 tag := numbered_mono node seq
  refine ⟨?_,?_,?_⟩
  · intro key tag member
    rcases ((OrSet.tag_mem_merge_carried s data key tag).mp member).1 with old | brought
    · exact later (proper.entries key tag old)
    · exact numbered_carried s brought
  · rw [adds]
    exact fun key tag member => later (proper.adds key tag member)
  · rw [removes]
    exact fun tag member => later (proper.removes tag member)

theorem settled_merge {d data : Bytes} (settled : Settled s d) (apart : Apart d data) : Settled (s.merge data).1 d := by
  obtain ⟨node,seq,_⟩ := OrSetRuns.merge_rest s data
  refine settled_change settled node seq ?_ ?_
  · intro key tag member
    obtain ⟨old | brought,alive⟩ := (OrSet.tag_mem_merge_carried s data key tag).mp member
    · exact .inl old
    · exact .inr ((apart.1 tag ((mem_allTags _ _).mpr ⟨key,brought⟩)).resolve_left alive)
  · intro key tag member there
    rcases apart.2 tag ((mem_allTags _ _).mpr ⟨key,member⟩) with dead | alive
    · exact .inl dead
    · exact .inr ((OrSet.tag_mem_merge_carried s data key tag).mpr ⟨.inl there,alive⟩)

theorem settled_delta (proper : Proper s) (current : Current s) :
    Settled s (OrSet.encodeEntries s.pendingAdds s.pendingRemoves) := by
  have entries := OrSet.mem_carried_entries current.fits
  have tombstones := OrSet.carried_tombstones current.fits
  refine ⟨?_,?_,?_,?_⟩
  · intro key tag dead member
    obtain ⟨e,listed,_,tagged⟩ := (mem_tagsOf_iff _ _ _).mp member
    rw [tombstones] at dead
    exact current.removed e listed tag (ExtTreeSet.mem_toList.mpr tagged) dead
  · intro key tag member
    obtain ⟨e,listed,rfl,tagged⟩ := (mem_tagsOf_iff _ _ _).mp ((entries key tag).mp member)
    rw [tombstones]
    exact current.added e listed tag (ExtTreeSet.mem_toList.mpr tagged)
  · exact fun key tag member => proper.adds key tag ((entries key tag).mp member)
  · rw [tombstones]
    exact proper.removes

theorem settled_snapshot (proper : Proper s) (fits : Fits s.entries ∅) : Settled s s.snapshot := by
  have entries := OrSet.mem_carried_entries fits
  have tombstones : (carried s.snapshot).tombstones = ∅ := OrSet.carried_tombstones fits
  have none : ∀ tag, tag ∉ (carried s.snapshot).tombstones := by
    intro tag
    rw [tombstones]
    exact ExtTreeSet.not_mem_empty
  refine ⟨fun key tag dead => absurd dead (none tag),?_,?_,fun tag dead => absurd dead (none tag)⟩
  · exact fun key tag member => .inr ((entries key tag).mp member)
  · exact fun key tag member => proper.entries key tag ((entries key tag).mp member)

end

/-! ### Whole runs -/

/-- The tags of a set are numbered. -/
def NumbersOf : Crdt → Prop
  | .orSet s => Proper s
  | _ => True

/-- The payload brings nothing that the value does not have. -/
def Kept : Crdt → Bytes → Prop
  | .lwwRegister r, d => LwwRegister.wireStamp d ≤ r.stamp
  | .gCounter c, d => ∀ e ∈ carriedEntries d, Has c e
  | .pnCounter c, d => ∀ side, ∀ e ∈ carriedOn side d, Has (half side c) e
  | .orSet s, d => Settled s d

theorem merge_of_kept {c : Crdt} {d : Bytes} (orderly : Orderly c) (kept : Kept c d) : (c.merge d).1 = c := by
  cases c with
  | lwwRegister r => exact congrArg Crdt.lwwRegister (LwwRegister.merge_of_le kept)
  | gCounter c =>
    have unchanged : GCounter.mergeEntries (c,false) (carriedEntries d) = (c,false) := GCounter.mergeEntries_of_has kept
    show Crdt.gCounter (c.merge d).1 = .gCounter c
    rw [GCounter.merge_eq,unchanged]
  | pnCounter c =>
    have halves : ∀ side, half side (c.merge d).1 = half side c := by
      intro side
      have unchanged : GCounter.mergeEntries (half side c,false) (carriedOn side d) = (half side c,false) :=
        GCounter.mergeEntries_of_has (kept side)
      rw [PnCounter.half_merge,unchanged]
    exact congrArg Crdt.pnCounter (PnCounter.mk.injEq .. ▸ ⟨halves .up,halves .down⟩)
  | orSet s => exact congrArg Crdt.orSet (merge_of_settled orderly.1 kept)

/-- The value is orderly, its tags are numbered, and everything handed out is kept. -/
structure Absorbing (s : Echoing) : Prop where
  orderly : Orderly s.crdt
  numbers : NumbersOf s.crdt
  kept : ∀ d ∈ s.produced, Kept s.crdt d

theorem absorbing_orSet {set : OrSet} {ds : List Bytes} {action : Action} (absorbing : Absorbing ⟨.orSet set,ds⟩)
    (ok : Keeps ⟨.orSet set,ds⟩ action) : Absorbing (step ⟨.orSet set,ds⟩ action) := by
  have proper : Proper set := absorbing.numbers
  have settled : ∀ d ∈ ds, Settled set d := absorbing.kept
  have orderly := absorbing.orderly.act action
  have quiet : ∀ set' : OrSet, Orderly (.orSet set') → Proper set' → (∀ d ∈ ds, Settled set' d) →
      Absorbing ⟨.orSet set',ds ++ []⟩ := by
    intro set' orderly proper settled
    rw [List.append_nil]
    exact ⟨orderly,proper,settled⟩
  rcases action with (⟨value,ts⟩ | ⟨amount⟩ | ⟨amount⟩ | ⟨elem⟩ | ⟨elem⟩) | _ | _ | ⟨data⟩
  · exact quiet set orderly proper settled
  · exact quiet set orderly proper settled
  · exact quiet set orderly proper settled
  · exact quiet _ orderly (proper_add proper ok elem) (fun d member => settled_add (settled d member) ok elem)
  · exact quiet _ orderly (proper_remove proper elem) (fun d member => settled_remove (settled d member) (ok d member))
  · by_cases dirty : set.dirty = true
    · have bytes : set.delta.1 = OrSet.encodeEntries set.pendingAdds set.pendingRemoves := by
        simp [OrSet.delta,dirty]
      have state : set.delta.2 = { set with dirty := false, pendingAdds := ∅, pendingRemoves := ∅ } := by
        simp [OrSet.delta,dirty]
      refine ⟨orderly,?_,?_⟩
      · show Proper set.delta.2
        rw [state]
        exact ⟨proper.entries,fun key tag member => by simp at member,fun tag member => by simp at member⟩
      · intro d member
        have here : Settled set d := by
          rcases List.mem_append.mp member with old | new
          · exact settled d old
          · rcases Crdt.mem_handsOut new with ⟨_,rfl,_⟩ | ⟨absurd,_⟩
            · show Settled set set.delta.1
              rw [bytes]
              exact settled_delta proper (ok dirty)
            · cases absurd
        show Settled set.delta.2 d
        rw [state]
        exact ⟨here.removed,here.added,here.numbered,here.numberedRemoves⟩
    · have nothing : set.delta = ([],set) := by simp [OrSet.delta,dirty]
      have unchanged : step ⟨.orSet set,ds⟩ .delta = ⟨.orSet set,ds ++ []⟩ := by
        simp [step,Crdt.act,Crdt.handsOut,Crdt.delta,nothing]
      rw [unchanged]
      exact quiet set absorbing.orderly proper settled
  · refine ⟨orderly,proper,fun d member => ?_⟩
    rcases List.mem_append.mp member with old | new
    · exact settled d old
    · cases List.mem_singleton.mp new
      exact settled_snapshot proper ok
  · exact quiet _ orderly (proper_merge proper data) (fun d member => settled_merge (settled d member) (ok d member))

theorem absorbing_step {s : Echoing} {action : Action} (absorbing : Absorbing s) (ok : Keeps s action) :
    Absorbing (step s action) := by
  obtain ⟨c,ds⟩ := s
  have orderly := absorbing.orderly.act action
  cases c with
  | lwwRegister r =>
    obtain ⟨r',after,le⟩ := register_act ok
    have kept : ∀ d ∈ ds, LwwRegister.wireStamp d ≤ r.stamp := absorbing.kept
    rw [step,after]
    refine ⟨trivial,trivial,fun d member => ?_⟩
    rcases List.mem_append.mp member with old | new
    · exact (kept d old).trans le
    · exact (register_handsOut new).le.trans le
  | gCounter c =>
    obtain ⟨c',after,above⟩ := gCounter_act ok
    have kept : ∀ d ∈ ds, ∀ e ∈ carriedEntries d, Has c e := absorbing.kept
    rw [step,after]
    refine ⟨after ▸ orderly,trivial,fun d member e carried => above e ?_⟩
    rcases List.mem_append.mp member with old | new
    · exact kept d old e carried
    · exact gCounter_handsOut absorbing.orderly new e carried
  | pnCounter c =>
    obtain ⟨c',after,above⟩ := pnCounter_act ok
    have kept : ∀ d ∈ ds, ∀ side, ∀ e ∈ carriedOn side d, Has (half side c) e := absorbing.kept
    rw [step,after]
    refine ⟨after ▸ orderly,trivial,fun d member side e carried => above side e ?_⟩
    rcases List.mem_append.mp member with old | new
    · exact kept d old side e carried
    · exact pnCounter_handsOut absorbing.orderly ok new side e carried
  | orSet set => exact absorbing_orSet absorbing ok

theorem numbers_new {n : UInt16} {type : CrdtType} {c : Crdt} (created : (StateRegistry.new n).createCrdt type = some c) :
    NumbersOf c := by
  cases type with
  | orSet =>
    cases created
    refine ⟨fun key tag member => ?_,fun key tag member => ?_,fun tag member => ?_⟩
    · simp [StateRegistry.new,OrSet.new] at member
    · simp [StateRegistry.new,OrSet.new] at member
    · simp [StateRegistry.new,OrSet.new] at member
  | _ => cases created <;> trivial

/-- A replica whose actions take nothing back absorbs whatever it has handed out. -/
theorem echoes_absorbed (n : UInt16) (type : CrdtType) (c : Crdt)
    (created : (StateRegistry.new n).createCrdt type = some c) (actions : List Action)
    (keeps : Along step Keeps ⟨c,[]⟩ actions) : Undisturbed (run step ⟨c,[]⟩ actions) := by
  have start : Absorbing ⟨c,[]⟩ := ⟨Orderly.new created,numbers_new created,fun d member => nomatch member⟩
  have absorbing := keeps.run_invariant (fun _ _ held ok => absorbing_step held ok) start
  exact fun d member => merge_of_kept absorbing.orderly (absorbing.kept d member)

/-- An element is added, handed out and removed. -/
def addSendRemove : List Action := [.change (.add [120]),.delta,.change (.remove [120])]

/-- The delta of the add, coming back, brings the element back. -/
theorem echo_undoes_remove :
    (StateRegistry.new 1).createCrdt .orSet = some (.orSet (.new 1)) ∧
      ¬ Undisturbed (run step ⟨.orSet (.new 1),[]⟩ addSendRemove) := by
  refine ⟨rfl,fun undisturbed => ?_⟩
  have same := Crdt.orSet.inj (undisturbed ((OrSet.new 1).add [120]).delta.1 (by decide +kernel))
  have contained := congrArg (fun s => OrSet.contains s [120]) same
  revert contained
  decide +kernel

/-- An element is added and sent, another is added, removed and sent, and the
    delta of another replica comes in between. -/
def addsAndMerges : List Action :=
  [.change (.add [120]),.delta,.merge ((OrSet.new 2).add [121]).delta.1,.change (.add [122]),.change (.remove [122]),
    .delta,.snapshot]

theorem echoes_absorbed_adds : Undisturbed (run step ⟨.orSet (.new 1),[]⟩ addsAndMerges) :=
  echoes_absorbed 1 .orSet _ rfl addsAndMerges (by decide +kernel)

end Rom.Echoes
