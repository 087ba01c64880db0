import Rom.Replicas
import Rom.CounterWire
import Rom.OrSetWire
import Rom.Freshness
import Rom.Runs

/-!
Leaving out deltas. A sender makes local changes and hands out deltas; merging
only the last of them should do what merging all of them in order does, since the
outbox keeps the last delta of a path only. It does exactly when the last delta
carries all that the earlier ones carry (`skip_safe_iff`): always so for
registers with rising timestamps, for counters while the count does not wrap, but
not for sets, whose deltas hold the latest changes only (`skipped_add_lost`).
-/
namespace Rom.Skips
open Std Rom.Runs
open Rom.GCounter (countOf carriedEntries largest mergeEntries mergeEntry mergeEntry_mergeEntry)
open Rom.PnCounter (Side half carriedOn)
open Rom.OrSet (decodeEntries maxSeq maxSeq_le_iff maxSeq_cases allTags mem_allTags entries_ext trim_mergeDecoded
  tag_mem_merge
  mergeDecoded_eq)
open Rom.Crdt (mergeAll act handsOut)

/-- A local change or a call of `delta`. -/
def Local : Action → Prop
  | .change _ => True
  | .delta => True
  | _ => False

instance (action : Action) : Decidable (Local action) :=
  match action with
  | .change _ => isTrue trivial
  | .delta => isTrue trivial
  | .snapshot => isFalse (fun no => no)
  | .merge _ => isFalse (fun no => no)

/-- The deltas that a sender hands out, in order. -/
def deltas (c : Crdt) (actions : List Action) : List Bytes := outputs act handsOut c actions

/-- The timestamps of the writes, in order. -/
def timestamps (actions : List Action) : List UInt32 :=
  actions.filterMap (fun
    | .change (.set _ ts) => some ts
    | _ => none)

/-! ### What a delta carries -/

/-- Every count is reached by the counts of other entries. -/
def CountsWithin (l m : List GCounterEntry) : Prop := ∀ e ∈ l, e.count.toNat ≤ largest m e.nodeId

instance (l m : List GCounterEntry) : Decidable (CountsWithin l m) :=
  inferInstanceAs (Decidable (∀ e ∈ l, e.count.toNat ≤ largest m e.nodeId))

/-- Each tag that is brought or removed is also brought or removed by the other,
    and the sequence numbers go as far. -/
structure Subsumed (i j : Decoded) : Prop where
  tombstones : ∀ tag ∈ i.tombstones.toList, tag ∈ j.tombstones
  entries : ∀ e ∈ i.entries.toList, ∀ tag ∈ e.2.toList, tag ∈ j.tombstones ∨ tag ∈ tagsOf j.entries e.1
  sequences : ∀ tag ∈ allTags i.entries,
    tag.sequence = 0 ∨ ∃ tag' ∈ allTags j.entries, tag'.nodeId = tag.nodeId ∧ tag.sequence ≤ tag'.sequence

instance (i j : Decoded) : Decidable (Subsumed i j) :=
  decidable_of_iff
    ((∀ tag ∈ i.tombstones.toList, tag ∈ j.tombstones) ∧
      (∀ e ∈ i.entries.toList, ∀ tag ∈ e.2.toList, tag ∈ j.tombstones ∨ tag ∈ tagsOf j.entries e.1) ∧
      ∀ tag ∈ allTags i.entries,
        tag.sequence = 0 ∨ ∃ tag' ∈ allTags j.entries, tag'.nodeId = tag.nodeId ∧ tag.sequence ≤ tag'.sequence)
    ⟨fun ⟨tombstones,entries,sequences⟩ => ⟨tombstones,entries,sequences⟩,
      fun subsumed => ⟨subsumed.tombstones,subsumed.entries,subsumed.sequences⟩⟩

/-- Whatever a merge of a type takes from a delta, it takes from the last one. A
    delta that cannot be read carries nothing. -/
def Carried (type : CrdtType) (d last : Bytes) : Prop :=
  match type with
  | .gCounter => CountsWithin (carriedEntries d) (carriedEntries last)
  | .pnCounter =>
    CountsWithin (carriedOn .up d) (carriedOn .up last) ∧ CountsWithin (carriedOn .down d) (carriedOn .down last)
  | .orSet => ∀ i ∈ decodeEntries d, ∃ j ∈ decodeEntries last, Subsumed i j
  | _ => True

/-! ### Leaving a delta out -/

/-- Merging the delta before the last one makes no difference. -/
def Absorbed (type : CrdtType) (d last : Bytes) : Prop :=
  ∀ r : Crdt, r.typeOf = type → ((r.merge d).1.merge last).1 = (r.merge last).1

/-- If the last delta absorbs all others, it is enough. -/
theorem mergeAll_of_absorbed {type : CrdtType} {ds : List Bytes} {last : Bytes} (ended : ds.getLast? = some last)
    (absorbed : ∀ d ∈ ds, Absorbed type d last) (r : Crdt) (same : r.typeOf = type) :
    mergeAll r ds = (r.merge last).1 := by
  induction ds generalizing r with
  | nil => cases ended
  | cons d ds ih =>
    cases ds with
    | nil =>
      cases ended
      rfl
    | cons d' ds =>
      have later := ih (by rwa [List.getLast?_cons_cons] at ended)
        (fun d member => absorbed d (List.mem_cons_of_mem _ member)) (r.merge d).1 ((r.typeOf_merge d).trans same)
      rw [Crdt.mergeAll_cons,later]
      exact absorbed d List.mem_cons_self r same

theorem absorbed_register {d last : Bytes} (newer : d = last ∨ LwwRegister.wireStamp d < LwwRegister.wireStamp last) :
    Absorbed .lwwRegister d last := by
  intro r same
  obtain ⟨r,rfl⟩ := Crdt.exists_register same
  show Crdt.lwwRegister ((r.merge d).1.merge last).1 = .lwwRegister (r.merge last).1
  apply congrArg
  by_cases wins : r.stamp < LwwRegister.wireStamp last
  · rcases newer with rfl | newer
    · apply LwwRegister.merge_of_le
      rw [LwwRegister.stamp_merge]
      exact le_max_right _ _
    · have still : (r.merge d).1.stamp < LwwRegister.wireStamp last := by
        rw [LwwRegister.stamp_merge]
        exact max_lt wins newer
      rw [LwwRegister.merge_of_lt still,LwwRegister.merge_of_lt wins]
      rcases LwwRegister.merge_cases r d with ⟨kept,_⟩ | ⟨_,_,copied⟩
      · rw [kept]
      · rw [copied]
  · have le := le_of_not_gt wins
    have older : LwwRegister.wireStamp d ≤ r.stamp := by
      rcases newer with rfl | newer
      · exact le
      · exact newer.le.trans le
    rw [LwwRegister.merge_of_le older]

/-- One entry, of the node. -/
def Single (n : UInt16) (l : List GCounterEntry) : Prop := ∃ k, l = [⟨n,k⟩]

theorem few_of_single {n : UInt16} {l : List GCounterEntry} (single : Single n l) : l.length < 2^8 := by
  obtain ⟨k,rfl⟩ := single
  exact Nat.one_lt_two_pow (by decide)

theorem mergeEntries_single {n : UInt16} {l m : List GCounterEntry} (single : Single n l) (single' : Single n m)
    (within : CountsWithin l m) (c : GCounter) :
    (mergeEntries ((mergeEntries (c,false) l).1,false) m).1 = (mergeEntries (c,false) m).1 := by
  obtain ⟨a,rfl⟩ := single
  obtain ⟨b,rfl⟩ := single'
  have le := within ⟨n,a⟩ (List.mem_singleton.mpr rfl)
  simp only [largest,if_true,Nat.max_zero] at le
  have fresh : ∀ st : GCounter × Bool, (mergeEntry (st.1,false) n b).1 = (mergeEntry st n b).1 := by
    intro st
    rw [mergeEntry,mergeEntry]
    dsimp only
    split
    · split
      · rfl
      · rfl
    · rfl
  exact (fresh _).trans (mergeEntry_mergeEntry (c,false) n (UInt64.le_iff_toNat_le.mpr le))

theorem absorbed_gCounter {n : UInt16} {d last : Bytes} (single : Single n (carriedEntries d))
    (single' : Single n (carriedEntries last)) (carried : Carried .gCounter d last) : Absorbed .gCounter d last := by
  intro r same
  obtain ⟨c,rfl⟩ := Crdt.exists_gCounter same
  show Crdt.gCounter ((c.merge d).1.merge last).1 = .gCounter (c.merge last).1
  apply congrArg
  rw [GCounter.merge_eq,GCounter.merge_eq,GCounter.merge_eq]
  exact mergeEntries_single single single' carried c

theorem absorbed_pnCounter {n : UInt16} {d last : Bytes} (single : ∀ side, Single n (carriedOn side d))
    (single' : ∀ side, Single n (carriedOn side last)) (carried : Carried .pnCounter d last) :
    Absorbed .pnCounter d last := by
  intro r same
  obtain ⟨c,rfl⟩ := Crdt.exists_pnCounter same
  have within : ∀ side, CountsWithin (carriedOn side d) (carriedOn side last) := by
    intro side
    cases side with
    | up => exact carried.1
    | down => exact carried.2
  have halves : ∀ side, half side ((c.merge d).1.merge last).1 = half side (c.merge last).1 := by
    intro side
    rw [PnCounter.half_merge,PnCounter.half_merge,PnCounter.half_merge]
    exact mergeEntries_single (single side) (single' side) (within side) _
  show Crdt.pnCounter ((c.merge d).1.merge last).1 = .pnCounter (c.merge last).1
  apply congrArg
  exact PnCounter.mk.injEq .. ▸ ⟨halves .up,halves .down⟩

theorem maxSeq_absorbed {i j : Decoded} (subsumed : Subsumed i j) (n : UInt16) (seq : UInt32) :
    maxSeq n (maxSeq n seq (allTags i.entries)) (allTags j.entries) = maxSeq n seq (allTags j.entries) := by
  apply UInt32.le_antisymm
  · have reached := (maxSeq_le_iff n seq _ (allTags j.entries)).mp (UInt32.le_refl _)
    refine (maxSeq_le_iff _ _ _ _).mpr ⟨(maxSeq_le_iff _ _ _ _).mpr ⟨reached.1,fun tag member own => ?_⟩,reached.2⟩
    rcases subsumed.sequences tag member with zero | ⟨tag',member',node,le⟩
    · rw [zero,UInt32.le_iff_toNat_le]
      exact Nat.zero_le _
    · exact UInt32.le_trans le (reached.2 tag' member' (node.trans own))
  · have reached := (maxSeq_le_iff n (maxSeq n seq (allTags i.entries)) _ (allTags j.entries)).mp (UInt32.le_refl _)
    have first := (maxSeq_le_iff n seq _ (allTags i.entries)).mp (UInt32.le_refl _)
    exact (maxSeq_le_iff _ _ _ _).mpr ⟨UInt32.le_trans first.1 reached.1,reached.2⟩

theorem mergeDecoded_absorbed {i j : Decoded} (subsumed : Subsumed i j) (s : OrSet) :
    ((s.mergeDecoded i).1.mergeDecoded j).1 = (s.mergeDecoded j).1 := by
  have entries : ((s.mergeDecoded i).1.mergeDecoded j).1.entries = (s.mergeDecoded j).1.entries := by
    apply entries_ext (trim_mergeDecoded _ _) (trim_mergeDecoded _ _)
    intro key tag
    have dead : tag ∈ i.tombstones → tag ∈ j.tombstones :=
      fun member => subsumed.tombstones tag (ExtTreeSet.mem_toList.mpr member)
    have brought : tag ∈ tagsOf i.entries key → tag ∈ j.tombstones ∨ tag ∈ tagsOf j.entries key := by
      intro member
      obtain ⟨e,listed,rfl,there⟩ := (mem_tagsOf_iff _ _ _).mp member
      exact subsumed.entries e listed tag (ExtTreeSet.mem_toList.mpr there)
    rw [tag_mem_merge,tag_mem_merge,tag_mem_merge]
    tauto
  rw [mergeDecoded_eq,entries,mergeDecoded_eq s j,OrSet.mk.injEq]
  exact ⟨rfl,maxSeq_absorbed subsumed _ _,rfl,rfl,rfl,rfl⟩

theorem absorbed_orSet {d last : Bytes} (carried : Carried .orSet d last) : Absorbed .orSet d last := by
  intro r same
  obtain ⟨s,rfl⟩ := Crdt.exists_orSet same
  show Crdt.orSet ((s.merge d).1.merge last).1 = .orSet (s.merge last).1
  apply congrArg
  cases read : decodeEntries d with
  | none =>
    rw [OrSet.merge_of_unread read]
  | some i =>
    obtain ⟨j,read',subsumed⟩ := carried i read
    rw [OrSet.merge_of_read read,OrSet.merge_of_read read',OrSet.merge_of_read read']
    exact mergeDecoded_absorbed subsumed s

/-! ### What the sender hands out -/

/-- A register without a pending write hands out nothing. -/
theorem deltas_clean {r : LwwRegister} (clean : r.dirty = false) (actions : List Action) :
    deltas (.lwwRegister r) (.delta :: actions) = deltas (.lwwRegister r) actions := by
  have state : act (.lwwRegister r) .delta = .lwwRegister r := by
    simp [act,Crdt.delta,LwwRegister.delta,clean]
  have nothing : handsOut (.lwwRegister r) .delta = [] := by
    simp [handsOut,Crdt.delta,LwwRegister.delta,clean]
  rw [deltas,outputs,nothing,state]
  rfl

/-- A register hands out its pending write. -/
theorem deltas_dirty {r : LwwRegister} (dirty : r.dirty = true) (actions : List Action) :
    deltas (.lwwRegister r) (.delta :: actions) =
      r.encodeState :: deltas (.lwwRegister { r with dirty := false }) actions := by
  have state : act (.lwwRegister r) .delta = .lwwRegister { r with dirty := false } := by
    simp [act,Crdt.delta,LwwRegister.delta,dirty]
  have sent : handsOut (.lwwRegister r) .delta = [r.encodeState] := by
    have sized : r.encodeState ≠ [] := by simp [LwwRegister.encodeState,writeU32]
    simp [handsOut,Crdt.delta,LwwRegister.delta,dirty,sized]
  rw [deltas,outputs,sent,state]
  rfl

/-- The deltas of a register have rising stamps, each that of a pending write or of
    a later one. -/
theorem deltas_register {actions : List Action} (own : ∀ action ∈ actions, Local action)
    (clocked : (timestamps actions).Pairwise (· < ·)) (r : LwwRegister)
    (later : r.dirty = true → ∀ ts ∈ timestamps actions, r.timestamp < ts) :
    (deltas (.lwwRegister r) actions).Pairwise (fun d d' => LwwRegister.wireStamp d < LwwRegister.wireStamp d') ∧
      ∀ d ∈ deltas (.lwwRegister r) actions, r.dirty = true ∧ LwwRegister.wireStamp d = r.stamp ∨
        ∃ ts ∈ timestamps actions, LwwRegister.wireStamp d = LwwRegister.stampOf ts r.nodeId := by
  induction actions generalizing r with
  | nil =>
    refine ⟨List.Pairwise.nil,fun d member => ?_⟩
    cases member
  | cons action actions ih =>
    have rest : ∀ action ∈ actions, Local action := fun action member => own action (List.mem_cons_of_mem _ member)
    rcases action with (⟨value,ts⟩ | ⟨amount⟩ | ⟨amount⟩ | ⟨elem⟩ | ⟨elem⟩) | _ | _ | ⟨data⟩
    · have times : timestamps (.change (.set value ts) :: actions) = ts :: timestamps actions := rfl
      rw [times,List.pairwise_cons] at clocked
      obtain ⟨rising,stamps⟩ := ih rest clocked.2 (r.set value ts) (fun _ => clocked.1)
      refine ⟨rising,fun d member => .inr ?_⟩
      rw [times]
      rcases stamps d member with ⟨_,same⟩ | ⟨ts',listed,same⟩
      · exact ⟨ts,List.mem_cons_self,same⟩
      · exact ⟨ts',List.mem_cons_of_mem _ listed,same⟩
    · exact ih rest clocked r later
    · exact ih rest clocked r later
    · exact ih rest clocked r later
    · exact ih rest clocked r later
    · cases dirty : r.dirty with
      | false =>
        rw [deltas_clean dirty,← dirty]
        exact ih rest clocked r later
      | true =>
        obtain ⟨rising,stamps⟩ := ih rest clocked { r with dirty := false }
          (fun pending => absurd pending Bool.false_ne_true)
        rw [deltas_dirty dirty]
        constructor
        · refine List.pairwise_cons.mpr ⟨fun d member => ?_,rising⟩
          rcases stamps d member with ⟨pending,_⟩ | ⟨ts,listed,same⟩
          · cases pending
          · rw [LwwRegister.wireStamp_encodeState,same]
            exact Prod.Lex.toLex_lt_toLex.mpr (.inl (UInt32.lt_iff_toNat_lt.mp (later dirty ts listed)))
        · intro d member
          rcases List.mem_cons.mp member with rfl | member
          · exact .inl ⟨rfl,LwwRegister.wireStamp_encodeState r⟩
          · rcases stamps d member with ⟨pending,_⟩ | ⟨ts,listed,same⟩
            · cases pending
            · exact .inr ⟨ts,listed,same⟩
    · exact absurd (own .snapshot List.mem_cons_self) (fun no => no)
    · exact absurd (own (.merge data) List.mem_cons_self) (fun no => no)

theorem single_of_sound {n : UInt16} {c : GCounter} (sound : GCounter.Sound {n} c) : Single n c.entries := by
  have within := sound.within
  have distinct := sound.distinct
  have member := sound.own
  match nodes : c.entries, distinct, within, member with
  | [e], _, within, _ =>
    have same := Finset.mem_singleton.mp (within e.nodeId (List.mem_singleton.mpr rfl))
    exact ⟨e.count,by rw [← same]⟩
  | e :: f :: l, distinct, within, _ =>
    have same := Finset.mem_singleton.mp (within e.nodeId (by simp [GCounter.nodesOf]))
    have same' := Finset.mem_singleton.mp (within f.nodeId (by simp [GCounter.nodesOf]))
    simp [GCounter.nodesOf,same,same'] at distinct

theorem single_sentEntries {n : UInt16} {c : GCounter} (sound : GCounter.Sound {n} c) :
    Single n (GCounter.sentEntries c) := by
  obtain ⟨k,entries⟩ := single_of_sound sound
  have own : c.nodeId = n := by
    have member := sound.own
    rw [entries] at member
    exact List.mem_singleton.mp member
  rw [GCounter.sentEntries]
  split
  · refine ⟨k,?_⟩
    rw [GCounter.find,entries,own]
    simp
  · exact ⟨k,entries⟩

/-- What a sender's value and its deltas look like. -/
def Alone (n : UInt16) : Crdt → Prop
  | .gCounter c => GCounter.Sound {n} c
  | .pnCounter c => ∀ side, GCounter.Sound {n} (half side c)
  | _ => True

def SingleDelta (type : CrdtType) (n : UInt16) (d : Bytes) : Prop :=
  match type with
  | .gCounter => Single n (carriedEntries d)
  | .pnCounter => ∀ side, Single n (carriedOn side d)
  | _ => True

theorem sound_dirty {n : UInt16} {c : GCounter} (sound : GCounter.Sound {n} c) (dirty : Bool) :
    GCounter.Sound {n} { c with dirty := dirty } := ⟨sound.distinct,sound.within,sound.own⟩

theorem alone_act {n : UInt16} {c : Crdt} (alone : Alone n c) {action : Action} (own : Local action) :
    Alone n (act c action) := by
  rcases action with change | _ | _ | data
  · match c, change with
    | .gCounter c, .increment amount => exact GCounter.sound_increment alone amount
    | .gCounter c, .set _ _ | .gCounter c, .decrement _ | .gCounter c, .add _ | .gCounter c, .remove _ => exact alone
    | .pnCounter c, .increment amount =>
      intro side
      cases side with
      | up => exact GCounter.sound_increment (alone .up) amount
      | down => exact alone .down
    | .pnCounter c, .decrement amount =>
      intro side
      cases side with
      | up => exact alone .up
      | down => exact GCounter.sound_increment (alone .down) amount
    | .pnCounter c, .set _ _ | .pnCounter c, .add _ | .pnCounter c, .remove _ => exact alone
    | .lwwRegister r, change => cases change <;> trivial
    | .orSet s, change => cases change <;> trivial
  · match c with
    | .lwwRegister r => trivial
    | .orSet s => trivial
    | .gCounter c =>
      show GCounter.Sound {n} c.delta.2
      rw [GCounter.delta_state]
      exact sound_dirty alone false
    | .pnCounter c =>
      intro side
      cases side with
      | up =>
        show GCounter.Sound {n} (PnCounter.deltaHalf c.p).2
        rw [GCounter.deltaHalf_state]
        exact sound_dirty (alone .up) false
      | down =>
        show GCounter.Sound {n} (PnCounter.deltaHalf c.n).2
        rw [GCounter.deltaHalf_state]
        exact sound_dirty (alone .down) false
  · exact absurd own (fun no => no)
  · exact absurd own (fun no => no)

theorem single_handsOut {n : UInt16} {c : Crdt} (alone : Alone n c) {action : Action} (own : Local action) :
    ∀ d ∈ handsOut c action, SingleDelta c.typeOf n d := by
  intro d member
  rcases action with change | _ | _ | data
  · cases member
  · have sent : d = c.delta.1 ∧ d ≠ [] := by
      rcases Crdt.mem_handsOut member with ⟨_,sent⟩ | ⟨absurd,_⟩
      · exact sent
      · cases absurd
    match c with
    | .lwwRegister r => trivial
    | .orSet s => trivial
    | .gCounter c =>
      have alone : GCounter.Sound {n} c := alone
      have bytes : d = _ := sent.1.trans (GCounter.delta_bytes alone)
      have dirty : c.dirty = true := by
        by_contra clean
        rw [if_neg clean] at bytes
        exact sent.2 bytes
      have single := single_sentEntries alone
      rw [GCounter.sentEntries,if_pos dirty] at single
      rw [if_pos dirty] at bytes
      show Single n (carriedEntries d)
      rw [bytes,GCounter.carriedEntries_encode_of_lt (few_of_single single)]
      exact single
    | .pnCounter c =>
      have soundUp : GCounter.Sound {n} c.p := alone .up
      have soundDown : GCounter.Sound {n} c.n := alone .down
      have up := single_sentEntries soundUp
      have down := single_sentEntries soundDown
      have bytes : d = GCounter.encodeEntries (GCounter.sentEntries c.p) ++
          GCounter.encodeEntries (GCounter.sentEntries c.n) := by
        rw [sent.1,← GCounter.deltaHalf_bytes soundUp,← GCounter.deltaHalf_bytes soundDown]
        rfl
      intro side
      rw [bytes,PnCounter.carriedOn_encode (few_of_single up) (few_of_single down)]
      cases side with
      | up => exact up
      | down => exact down
  · exact absurd own (fun no => no)
  · exact absurd own (fun no => no)

/-! ### What the last delta has to carry -/

/-- The counts of a counter, on both sides; for the grow-only one they are the
    same. -/
def counts : Crdt → Side → UInt16 → ℕ
  | .gCounter c, _ => c.countOf
  | .pnCounter c, side => (half side c).countOf
  | _, _ => fun _ => 0

def entriesIn (type : CrdtType) (side : Side) (d : Bytes) : List GCounterEntry :=
  match type with
  | .gCounter => carriedEntries d
  | .pnCounter => carriedOn side d
  | _ => []

theorem counts_merge (c : Crdt) (d : Bytes) (side : Side) (n : UInt16) :
    counts (c.merge d).1 side n = max (counts c side n) (largest (entriesIn c.typeOf side d) n) := by
  cases c with
  | lwwRegister r => rfl
  | orSet s => rfl
  | gCounter c => exact GCounter.countOf_merge c d n
  | pnCounter c =>
    show (half side (c.merge d).1).countOf n = _
    rw [PnCounter.half_merge,GCounter.countOf_mergeEntries]
    rfl

theorem counts_le_mergeAll (c : Crdt) (ds : List Bytes) (side : Side) (n : UInt16) :
    counts c side n ≤ counts (mergeAll c ds) side n := by
  induction ds generalizing c with
  | nil => exact Nat.le_refl _
  | cons d ds ih =>
    refine Nat.le_trans ?_ (ih (c.merge d).1)
    rw [counts_merge]
    exact Nat.le_max_left _ _

theorem largest_le_mergeAll {ds : List Bytes} {d : Bytes} (member : d ∈ ds) (c : Crdt) (side : Side) (n : UInt16) :
    largest (entriesIn c.typeOf side d) n ≤ counts (mergeAll c ds) side n := by
  induction ds generalizing c with
  | nil => cases member
  | cons d' ds ih =>
    rcases List.mem_cons.mp member with rfl | later
    · refine Nat.le_trans ?_ (counts_le_mergeAll (c.merge d).1 ds side n)
      rw [counts_merge]
      exact Nat.le_max_right _ _
    · have rest := ih later (c.merge d').1
      rwa [Crdt.typeOf_merge] at rest

theorem le_largest {l : List GCounterEntry} {e : GCounterEntry} (member : e ∈ l) : e.count.toNat ≤ largest l e.nodeId := by
  induction l with
  | nil => cases member
  | cons f l ih =>
    rw [largest]
    rcases List.mem_cons.mp member with rfl | later
    · rw [if_pos rfl]
      exact Nat.le_max_left _ _
    · split
      · exact (ih later).trans (Nat.le_max_right _ _)
      · exact ih later

/-- A counter that has no counts yet shows what the last delta lacks. -/
theorem within_of_safe {ds : List Bytes} {last : Bytes} {r : Crdt} (safe : (r.merge last).1 = mergeAll r ds)
    (zero : ∀ side n, counts r side n = 0) {d : Bytes} (member : d ∈ ds) (side : Side) :
    CountsWithin (entriesIn r.typeOf side d) (entriesIn r.typeOf side last) := by
  intro e listed
  have reached := (le_largest listed).trans (largest_le_mergeAll member r side e.nodeId)
  rwa [← safe,counts_merge,zero,Nat.zero_max] at reached

section
variable {ds : List Bytes} {last d : Bytes}

theorem countOf_new_half (n m : UInt16) (side : Side) : (half side (PnCounter.new n)).countOf m = 0 := by
  cases side with
  | up => exact GCounter.countOf_new n m
  | down => exact GCounter.countOf_new n m

theorem carried_of_safe_gCounter
    (safe : ∀ r : Crdt, r.typeOf = .gCounter → (r.merge last).1 = mergeAll r ds) (member : d ∈ ds) :
    Carried .gCounter d last :=
  within_of_safe (safe (.gCounter (.new 0)) rfl) (fun _ n => GCounter.countOf_new 0 n) member .up

theorem carried_of_safe_pnCounter
    (safe : ∀ r : Crdt, r.typeOf = .pnCounter → (r.merge last).1 = mergeAll r ds) (member : d ∈ ds) :
    Carried .pnCounter d last := by
  have zero : ∀ side n, counts (.pnCounter (.new 0)) side n = 0 := fun side n => countOf_new_half 0 n side
  exact ⟨within_of_safe (safe (.pnCounter (.new 0)) rfl) zero member .up,
    within_of_safe (safe (.pnCounter (.new 0)) rfl) zero member .down⟩

/-- A merge of the bytes decides whether the element has the tag. -/
def Touches (d key : Bytes) (tag : OrSetTag) : Prop :=
  tag ∈ (OrSet.carried d).tombstones ∨ tag ∈ tagsOf (OrSet.carried d).entries key

theorem tag_merge_congr {s s' : OrSet} {key : Bytes} {tag : OrSetTag}
    (same : tag ∈ tagsOf s.entries key ↔ tag ∈ tagsOf s'.entries key) (d : Bytes) :
    tag ∈ tagsOf (s.merge d).1.entries key ↔ tag ∈ tagsOf (s'.merge d).1.entries key := by
  rw [OrSet.tag_mem_merge_carried,OrSet.tag_mem_merge_carried,same]

theorem tag_mergeAll_congr {s s' : OrSet} {key : Bytes} {tag : OrSetTag}
    (same : tag ∈ tagsOf s.entries key ↔ tag ∈ tagsOf s'.entries key) (ds : List Bytes) :
    tag ∈ tagsOf (s.mergeAll ds).entries key ↔ tag ∈ tagsOf (s'.mergeAll ds).entries key := by
  induction ds generalizing s s' with
  | nil => exact same
  | cons d ds ih => exact ih (tag_merge_congr same d)

/-- Once a delta has decided about a tag, where the merges started is forgotten. -/
theorem tag_mergeAll_of_touches {key : Bytes} {tag : OrSetTag} (member : d ∈ ds) (touches : Touches d key tag)
    (s s' : OrSet) : tag ∈ tagsOf (s.mergeAll ds).entries key ↔ tag ∈ tagsOf (s'.mergeAll ds).entries key := by
  induction ds generalizing s s' with
  | nil => cases member
  | cons d' ds ih =>
    rcases List.mem_cons.mp member with rfl | later
    · have decided : tag ∈ tagsOf (s.merge d).1.entries key ↔ tag ∈ tagsOf (s'.merge d).1.entries key := by
        rw [OrSet.tag_mem_merge_carried,OrSet.tag_mem_merge_carried]
        rcases touches with dead | alive
        · simp [dead]
        · simp [alive]
      exact tag_mergeAll_congr decided ds
    · exact ih later (s.merge d').1 (s'.merge d').1

theorem touches_of_safe (safe : ∀ s : OrSet, (s.merge last).1 = s.mergeAll ds) (member : d ∈ ds) {key : Bytes}
    {tag : OrSetTag} (touches : Touches d key tag) : Touches last key tag := by
  by_contra untouched
  rw [Touches,not_or] at untouched
  have kept : ∀ s : OrSet, tag ∈ tagsOf (s.mergeAll ds).entries key ↔ tag ∈ tagsOf s.entries key := by
    intro s
    rw [← safe s,OrSet.tag_mem_merge_carried]
    tauto
  have same := tag_mergeAll_of_touches member touches (.new 0) { entries := insertTag ∅ key tag }
  rw [kept,kept,mem_insertTag] at same
  have there := same.mpr (.inl ⟨rfl,rfl⟩)
  simp [OrSet.new] at there

theorem seq_le_mergeAll (s : OrSet) (ds : List Bytes) :
    (s.mergeAll ds).nodeId = s.nodeId ∧ s.seq ≤ (s.mergeAll ds).seq := by
  induction ds generalizing s with
  | nil => exact ⟨rfl,UInt32.le_refl _⟩
  | cons d ds ih =>
    have first : (s.merge d).1.nodeId = s.nodeId ∧ s.seq ≤ (s.merge d).1.seq := by
      rw [OrSet.merge]
      cases decodeEntries d with
      | none => exact ⟨rfl,UInt32.le_refl _⟩
      | some i => exact ⟨rfl,((maxSeq_le_iff _ _ _ _).mp (UInt32.le_refl _)).1⟩
    obtain ⟨node,le⟩ := ih (s.merge d).1
    exact ⟨node.trans first.1,UInt32.le_trans first.2 le⟩

theorem sequence_le_mergeAll {i : Decoded} (read : decodeEntries d = some i) (member : d ∈ ds) {tag : OrSetTag}
    (listed : tag ∈ allTags i.entries) (s : OrSet) (own : tag.nodeId = s.nodeId) :
    tag.sequence ≤ (s.mergeAll ds).seq := by
  induction ds generalizing s with
  | nil => cases member
  | cons d' ds ih =>
    rcases List.mem_cons.mp member with rfl | later
    · have reached : tag.sequence ≤ (s.merge d).1.seq := by
        rw [OrSet.merge_of_read read]
        exact ((maxSeq_le_iff _ _ _ _).mp (UInt32.le_refl _)).2 tag listed own
      exact UInt32.le_trans reached (seq_le_mergeAll (s.merge d).1 ds).2
    · have node := (seq_le_mergeAll s [d']).1
      exact ih later (s.merge d').1 (own.trans node.symm)

theorem trim_mergeAll {i : Decoded} (read : decodeEntries d = some i) (member : d ∈ ds) (s : OrSet) :
    OrSet.Trim (s.mergeAll ds).entries := by
  have later : ∀ (ds : List Bytes) (s : OrSet), OrSet.Trim s.entries → OrSet.Trim (s.mergeAll ds).entries := by
    intro ds
    induction ds with
    | nil => exact fun s trim => trim
    | cons d ds ih => exact fun s trim => ih (s.merge d).1 (OrSet.trim_merge trim d)
  induction ds generalizing s with
  | nil => cases member
  | cons d' ds ih =>
    rcases List.mem_cons.mp member with rfl | rest
    · refine later ds (s.merge d).1 ?_
      rw [OrSet.merge_of_read read]
      exact trim_mergeDecoded s i
    · exact ih rest (s.merge d').1

theorem exists_unlisted (m : EntryMap) : ∃ key, ∀ tag, tag ∉ tagsOf m key := by
  obtain ⟨key,unlisted⟩ := Infinite.exists_notMem_finset (m.toList.map Prod.fst).toFinset
  refine ⟨key,fun tag member => unlisted ?_⟩
  obtain ⟨e,listed,rfl,_⟩ := (mem_tagsOf_iff _ _ _).mp member
  exact List.mem_toFinset.mpr (List.mem_map.mpr ⟨e,listed,rfl⟩)

theorem carried_of_safe_orSet (safe : ∀ r : Crdt, r.typeOf = .orSet → (r.merge last).1 = mergeAll r ds)
    (member : d ∈ ds) : Carried .orSet d last := by
  have safe : ∀ s : OrSet, (s.merge last).1 = s.mergeAll ds := by
    intro s
    have same := safe (.orSet s) rfl
    rw [Crdt.mergeAll_orSet] at same
    exact Crdt.orSet.inj same
  intro i read
  have carried := OrSet.carried_of_read read
  cases read' : decodeEntries last with
  | none =>
    -- a set that lists an element without tags keeps it only if nothing is read
    have trim := trim_mergeAll read member { entries := (∅ : EntryMap).insert [] ∅ }
    rw [← safe,OrSet.merge,read'] at trim
    have tagged := trim ([],∅) (ExtTreeMap.mem_toList_iff_getElem?_eq_some.mpr ExtTreeMap.getElem?_insert_self)
    exact absurd tagged (by decide)
  | some j =>
    have carried' : OrSet.carried last = j := by rw [OrSet.carried,read']; rfl
    refine ⟨j,rfl,?_,?_,?_⟩
    · intro tag listed
      obtain ⟨key,unlisted⟩ := exists_unlisted j.entries
      have touches : Touches d key tag := .inl (by rw [carried]; exact ExtTreeSet.mem_toList.mp listed)
      have touched := touches_of_safe safe member touches
      rw [Touches,carried'] at touched
      exact touched.resolve_right (unlisted tag)
    · intro e listed tag tagged
      have touches : Touches d e.1 tag := by
        refine .inr ?_
        rw [carried]
        exact (mem_tagsOf_iff _ _ _).mpr ⟨e,listed,rfl,ExtTreeSet.mem_toList.mp tagged⟩
      have touched := touches_of_safe safe member touches
      rwa [Touches,carried'] at touched
    · intro tag listed
      have reached := sequence_le_mergeAll read member listed (.new tag.nodeId) rfl
      rw [← safe,OrSet.merge,read'] at reached
      rcases maxSeq_cases tag.nodeId 0 (allTags j.entries) with zero | ⟨tag',listed',node,same⟩
      · have least : tag.sequence ≤ 0 := zero ▸ reached
        rw [UInt32.le_iff_toNat_le] at least
        exact .inl (UInt32.toNat_inj.mp (Nat.le_zero.mp least))
      · exact .inr ⟨tag',listed',node,same ▸ reached⟩

end

/-! ### Skipping -/

theorem newer_of_pairwise {ds : List Bytes} {last : Bytes} (ended : ds.getLast? = some last)
    (rising : ds.Pairwise (fun d d' => LwwRegister.wireStamp d < LwwRegister.wireStamp d')) {d : Bytes} (member : d ∈ ds) :
    d = last ∨ LwwRegister.wireStamp d < LwwRegister.wireStamp last := by
  obtain ⟨front,rfl⟩ := List.getLast?_eq_some_iff.mp ended
  rcases List.mem_append.mp member with before | here
  · exact .inr ((List.pairwise_append.mp rising).2.2 d before last (List.mem_singleton.mpr rfl))
  · exact .inl (List.mem_singleton.mp here)

section
variable {n : UInt16} {type : CrdtType} {c : Crdt} {actions : List Action} {last : Bytes}

theorem alone_new (created : (StateRegistry.new n).createCrdt type = some c) : Alone n c ∧ c.typeOf = type := by
  match type, created with
  | .lwwRegister, rfl => exact ⟨trivial,rfl⟩
  | .gCounter, rfl => exact ⟨GCounter.sound_new (Finset.mem_singleton.mpr rfl),rfl⟩
  | .pnCounter, rfl =>
    refine ⟨fun side => ?_,rfl⟩
    cases side with
    | up => exact GCounter.sound_new (Finset.mem_singleton.mpr rfl)
    | down => exact GCounter.sound_new (Finset.mem_singleton.mpr rfl)
  | .orSet, rfl => exact ⟨trivial,rfl⟩

theorem single_deltas (created : (StateRegistry.new n).createCrdt type = some c)
    (own : ∀ action ∈ actions, Local action) : ∀ d ∈ deltas c actions, SingleDelta type n d := by
  obtain ⟨alone,same⟩ := alone_new created
  have keeps : ∀ (c : Crdt) (action : Action), Alone n c ∧ c.typeOf = type → Local action →
      Alone n (act c action) ∧ (act c action).typeOf = type :=
    fun c action held own => ⟨alone_act held.1 own,(Crdt.typeOf_act c action).trans held.2⟩
  refine forall_outputs keeps (fun c action held own d member => ?_) ⟨alone,same⟩ own
  rw [← held.2]
  exact single_handsOut held.1 own d member

theorem absorbed_of_carried (created : (StateRegistry.new n).createCrdt type = some c)
    (own : ∀ action ∈ actions, Local action) (clocked : (timestamps actions).Pairwise (· < ·))
    (ended : (deltas c actions).getLast? = some last) {d : Bytes} (member : d ∈ deltas c actions)
    (carried : Carried type d last) : Absorbed type d last := by
  have single := single_deltas created own
  have lastMember : last ∈ deltas c actions := List.mem_of_getLast? ended
  match type, created with
  | .lwwRegister, rfl =>
    exact absorbed_register (newer_of_pairwise ended
      (deltas_register own clocked (.new n) (fun dirty => absurd dirty Bool.false_ne_true)).1 member)
  | .gCounter, rfl => exact absorbed_gCounter (single d member) (single last lastMember) carried
  | .pnCounter, rfl => exact absorbed_pnCounter (single d member) (single last lastMember) carried
  | .orSet, rfl => exact absorbed_orSet carried

theorem carried_of_safe (created : (StateRegistry.new n).createCrdt type = some c) {ds : List Bytes}
    (safe : ∀ r : Crdt, r.typeOf = type → (r.merge last).1 = mergeAll r ds) {d : Bytes} (member : d ∈ ds) :
    Carried type d last := by
  match type, created with
  | .lwwRegister, _ => trivial
  | .gCounter, _ => exact carried_of_safe_gCounter safe member
  | .pnCounter, _ => exact carried_of_safe_pnCounter safe member
  | .orSet, _ => exact carried_of_safe_orSet safe member

end

/-- For deltas of local changes, merging the last one leaves every replica as
    merging all of them does, exactly when the last one carries what the others
    carry. -/
theorem skip_safe_iff (n : UInt16) (type : CrdtType) (c : Crdt)
    (created : (StateRegistry.new n).createCrdt type = some c) (actions : List Action)
    (own : ∀ action ∈ actions, Local action) (clocked : (timestamps actions).Pairwise (· < ·)) (last : Bytes)
    (ended : (deltas c actions).getLast? = some last) :
    (∀ r : Crdt, r.typeOf = type → (r.merge last).1 = mergeAll r (deltas c actions)) ↔
      ∀ d ∈ deltas c actions, Carried type d last := by
  constructor
  · exact fun safe d member => carried_of_safe created safe member
  · intro carried r same
    have absorbed : ∀ d ∈ deltas c actions, Absorbed type d last :=
      fun d member => absorbed_of_carried created own clocked ended member (carried d member)
    exact (mergeAll_of_absorbed ended absorbed r same).symm

/-- The element of the first delta is not in the second. -/
def addTwice : List Action := [.change (.add [120]),.delta,.change (.add [121]),.delta]

/-- A receiver of the last delta only lacks the first element. -/
theorem skipped_add_lost :
    (StateRegistry.new 1).createCrdt .orSet = some (.orSet (.new 1)) ∧
      (∀ action ∈ addTwice, Local action) ∧ (timestamps addTwice).Pairwise (· < ·) ∧
      ∃ last, (deltas (.orSet (.new 1)) addTwice).getLast? = some last ∧
        ((OrSet.new 2).merge last).1.contains [120] = false ∧
        ((OrSet.new 2).mergeAll (deltas (.orSet (.new 1)) addTwice)).contains [120] = true := by
  refine ⟨rfl,by decide,by decide,((((OrSet.new 1).add [120]).delta.2.add [121]).delta.1),?_⟩
  decide +kernel

/-- A counter that is incremented twice. -/
def countTwice : List Action := [.change (.increment 2),.delta,.change (.increment 3),.delta]

theorem skip_safe_counter : ∃ last, (deltas (.gCounter (.new 1)) countTwice).getLast? = some last ∧
    ∀ r : Crdt, r.typeOf = .gCounter → (r.merge last).1 = mergeAll r (deltas (.gCounter (.new 1)) countTwice) := by
  have ended : (deltas (.gCounter (.new 1)) countTwice).getLast? = some ((GCounter.new 1).increment 5).delta.1 := by
    decide +kernel
  have carried : ∀ d ∈ deltas (.gCounter (.new 1)) countTwice,
      CountsWithin (carriedEntries d) (carriedEntries ((GCounter.new 1).increment 5).delta.1) := by decide +kernel
  exact ⟨_,ended,(skip_safe_iff 1 .gCounter _ rfl countTwice (by decide) (by decide) _ ended).mpr carried⟩

/-! ### The outbox -/

/-- What a coalesced outbox of one path leaves to merge is its last delta. -/
theorem mergeAll_coalesced {o : DeltaOutbox} {hash : UInt32} {last : Bytes}
    (ended : ((o.forPath hash).map OutboxEntry.data).getLast? = some last) (r : Crdt) :
    mergeAll r ((o.coalesce.1.forPath hash).map OutboxEntry.data) = (r.merge last).1 := by
  rw [List.getLast?_map] at ended
  obtain ⟨entry,found,rfl⟩ := Option.map_eq_some_iff.mp ended
  rw [DeltaOutbox.forPath_coalesce,found]
  rfl

end Rom.Skips
