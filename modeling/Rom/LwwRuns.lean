import Rom.LwwRegister
import Rom.Replication

/-!
Replicas of one register that write, hand out deltas and merge them in any order
and any number of times. When every delta has reached every other replica and
nothing is pending, the replicas should agree. They need not: a local write may
carry a stamp that is not above the one it replaces, or one that another write
carries too, since it keeps the node id of the last merged write
(`diverges_after_older_write`). They agree in every
run in which each write carries a stamp above its replica's own and new to all
(`lww_converges`).
-/
namespace Rom.LwwRuns
open Rom.Runs Rom.Replication LwwRegister
set_option linter.unusedSectionVars false

/-- A local write. -/
structure Write where
  data : Bytes
  timestampUs : UInt32
  deriving DecidableEq, Repr

/-- The register as a replicated object; an empty delta is not sent. -/
def lww : Object LwwRegister Write Bytes where
  apply r w := r.set w.data w.timestampUs
  delta r := (if r.delta.1.isEmpty then none else some r.delta.1,r.delta.2)
  merge r d := (r.merge d).1

variable {ι : Type*} [DecidableEq ι]

abbrev LwwNetwork (ι : Type*) := Network ι LwwRegister Bytes
abbrev LwwEvent (ι : Type*) := Event ι Write

/-- Every replica as it is constructed. -/
def begin (ids : ι → UInt16) : LwwNetwork ι := start (fun i => LwwRegister.new (ids i))

/-- The timestamps of the writes at a replica, in order. -/
def writeTimes (i : ι) (es : List (LwwEvent ι)) : List UInt32 :=
  es.filterMap (fun e => match e with
    | .act j w => if j = i then some w.timestampUs else none
    | _ => none)

/-- Every replica writes at times from 1 on, each later than the one before. -/
def Clocked (es : List (LwwEvent ι)) : Prop :=
  ∀ i, (∀ t ∈ writeTimes i es, 1 ≤ t) ∧ (writeTimes i es).Pairwise (· < ·)

-- The bound is decided over the list of times, not over all 32-bit words.
instance [Fintype ι] : DecidablePred (Clocked : List (LwwEvent ι) → Prop) := fun es =>
  @Fintype.decidableForallFintype ι _ (fun i => @instDecidableAnd _ _ (List.decidableBAll (1 ≤ ·) (writeTimes i es))
    inferInstance) _

/-- All replicas hold the same value under the same stamp. -/
def Agree (s : LwwNetwork ι) : Prop :=
  ∀ i j, (s.node i).value = (s.node j).value ∧ (s.node i).timestamp = (s.node j).timestamp ∧
    (s.node i).nodeId = (s.node j).nodeId

/-- A clocked run with a write that ends settled, with nothing pending, ends in
    agreement. -/
def Converges (ids : ι → UInt16) (es : List (LwwEvent ι)) : Prop :=
  Clocked es → (∃ i w, Event.act i w ∈ es) → Settled (run (step lww) (begin ids) es) →
    (∀ i, ((run (step lww) (begin ids) es).node i).hasPendingDelta = false) → Agree (run (step lww) (begin ids) es)

/-- A write carries a stamp above the one its replica holds, and no other replica
    and no delta carries that stamp. -/
def FreshWrite (s : LwwNetwork ι) : LwwEvent ι → Prop
  | .act i w => (s.node i).timestamp < w.timestampUs ∧
      (∀ j, j ≠ i → (s.node j).stamp ≠ stampOf w.timestampUs (s.node i).nodeId) ∧
      ∀ d ∈ s.sent, wireStamp d.2 ≠ stampOf w.timestampUs (s.node i).nodeId
  | _ => True

instance [Fintype ι] (s : LwwNetwork ι) (e : LwwEvent ι) : Decidable (FreshWrite s e) :=
  match e with
  | .act _ _ => inferInstanceAs (Decidable (_ ∧ _ ∧ _))
  | .emit _ => isTrue trivial
  | .deliver _ _ => isTrue trivial

/-! ### One step -/

theorem delta_eq_some {r : LwwRegister} {d : Bytes} (emitted : (lww.delta r).1 = some d) :
    r.dirty = true ∧ d = r.encodeState := by
  simp only [lww,LwwRegister.delta] at emitted
  cases pending : r.dirty with
  | false => simp [pending] at emitted
  | true =>
    simp only [pending,Bool.not_true,Bool.false_eq_true,if_false] at emitted
    split at emitted
    · cases emitted
    · exact ⟨rfl,(Option.some.inj emitted).symm⟩

/-- Handing out a delta only clears the pending mark. -/
theorem delta_state (r : LwwRegister) : (lww.delta r).2 = { r with dirty := false } := by
  rcases r with ⟨value,timestamp,nodeId,pending⟩
  cases pending <;> simp [lww,LwwRegister.delta]

theorem stamp_set_le {s : LwwNetwork ι} {i : ι} {w : Write} (fresh : FreshWrite s (.act i w)) :
    (s.node i).stamp < ((s.node i).set w.data w.timestampUs).stamp := by
  exact Prod.Lex.toLex_lt_toLex.mpr (.inl (UInt32.lt_iff_toNat_lt.mp fresh.1))

/-- Stamps only grow as long as writes are fresh. -/
theorem growing : Growing lww (FreshWrite : LwwNetwork ι → LwwEvent ι → Prop) LwwRegister.stamp wireStamp where
  apply_le _ _ _ fresh := (stamp_set_le fresh).le
  delta_le r := by rw [delta_state]; exact le_rfl
  weight_le r d emitted := by rw [(delta_eq_some emitted).2,wireStamp_encodeState]
  merge_le r d := by
    show r.stamp ≤ (r.merge d).1.stamp
    rw [stamp_merge]
    exact le_max_left _ _
  weight_merge_le r d := by
    show wireStamp d ≤ (r.merge d).1.stamp
    rw [stamp_merge]
    exact le_max_right _ _

/-- A replica or a delta carries the value under the stamp. -/
def Carried (s : LwwNetwork ι) (st : Stamp) (v : Bytes) : Prop :=
  (∃ i, (s.node i).stamp = st ∧ (s.node i).value = v) ∨ ∃ d ∈ s.sent, wireStamp d.2 = st ∧ d.2.drop headerSize = v

/-- What fresh writes keep true: a stamp carries one value, and what is not
    pending has been handed out. -/
structure Coherent (s : LwwNetwork ι) : Prop where
  known : MergedSent s
  above : Above LwwRegister.stamp wireStamp s
  unique : ∀ st v v', Carried s st v → Carried s st v' → v = v'
  clean : ∀ i, (s.node i).dirty = false → (s.node i).timestamp = 0 ∨
    ∃ d ∈ s.sent, wireStamp d.2 = (s.node i).stamp ∧ d.2.drop headerSize = (s.node i).value

theorem coherent_begin (ids : ι → UInt16) : Coherent (begin ids) where
  known i k member := by simp [begin,start] at member
  above i k d found _ := by simp [begin,start] at found
  unique st v v' carried carried' := by
    -- Nothing is sent yet and every replica holds the empty value.
    have empty : ∀ v, Carried (begin ids) st v → v = [] := by
      rintro v (⟨i,_,rfl⟩ | ⟨d,member,_⟩)
      · rfl
      · simp [begin,start] at member
    rw [empty v carried,empty v' carried']
  clean i _ := .inl rfl

/-- A delta handed out carries what its author holds. -/
theorem carried_emit {s : LwwNetwork ι} {i : ι} {st : Stamp} {v : Bytes}
    (carried : Carried (step lww s (.emit i)) st v) : Carried s st v := by
  rcases carried with ⟨j,same,value⟩ | ⟨d,member,same,value⟩
  · refine .inl ⟨j,?_⟩
    by_cases own : j = i
    · subst own
      simp only [step,Function.update_self,delta_state] at same value
      exact ⟨same,value⟩
    · simp only [step,Function.update_of_ne own] at same value
      exact ⟨same,value⟩
  · rcases mem_sent_step member with old | ⟨_,emitted⟩
    · exact .inr ⟨d,old,same,value⟩
    · have encoded := (delta_eq_some emitted).2
      rw [encoded,wireStamp_encodeState] at same
      rw [encoded,drop_encodeState] at value
      exact .inl ⟨d.1,same,value⟩

/-- After a delivery the replica holds what it held or what the delta carries. -/
theorem deliver_node (s : LwwNetwork ι) (i : ι) (k : Nat) :
    (step lww s (.deliver i k)).sent = s.sent ∧
    ∀ j, (step lww s (.deliver i k)).node j = s.node j ∨
      ∃ d ∈ s.sent, ((step lww s (.deliver i k)).node j).stamp = wireStamp d.2 ∧
        ((step lww s (.deliver i k)).node j).value = d.2.drop headerSize := by
  simp only [step]
  split
  · next d found =>
    refine ⟨rfl,fun j => ?_⟩
    by_cases own : j = i
    · subst own
      simp only [Function.update_self]
      rcases merge_cases (s.node j) d.2 with ⟨same,_⟩ | ⟨long,_,copied⟩
      · exact .inl same
      · refine .inr ⟨d,List.mem_of_getElem? found,?_,?_⟩
        · show (((s.node j).merge d.2).1).stamp = _
          rw [copied,wireStamp,if_neg (not_lt.mpr long)]
          rfl
        · show (((s.node j).merge d.2).1).value = _
          rw [copied]
    · exact .inl (by simp [own])
  · exact ⟨rfl,fun j => .inl rfl⟩

theorem carried_deliver {s : LwwNetwork ι} {i : ι} {k : Nat} {st : Stamp} {v : Bytes}
    (carried : Carried (step lww s (.deliver i k)) st v) : Carried s st v := by
  obtain ⟨sent,nodes⟩ := deliver_node s i k
  rcases carried with ⟨j,same,value⟩ | ⟨d,member,same,value⟩
  · rcases nodes j with kept | ⟨d,member,copied,contents⟩
    · rw [kept] at same value
      exact .inl ⟨j,same,value⟩
    · exact .inr ⟨d,member,copied.symm.trans same,contents.symm.trans value⟩
  · rw [sent] at member
    exact .inr ⟨d,member,same,value⟩

/-- After a write, a carried value is the one written or was carried by another
    replica or a delta, under another stamp. -/
theorem carried_act {s : LwwNetwork ι} {i : ι} {w : Write} (fresh : FreshWrite s (.act i w)) {st : Stamp} {v : Bytes}
    (carried : Carried (step lww s (.act i w)) st v) :
    st = stampOf w.timestampUs (s.node i).nodeId ∧ v = w.data ∨
      st ≠ stampOf w.timestampUs (s.node i).nodeId ∧ Carried s st v := by
  obtain ⟨_,others,deltas⟩ := fresh
  rcases carried with ⟨j,same,value⟩ | ⟨d,member,same,value⟩
  · by_cases own : j = i
    · subst own
      simp only [step,Function.update_self,lww,LwwRegister.set] at same value
      exact .inl ⟨same.symm,value.symm⟩
    · simp only [step,Function.update_of_ne own] at same value
      exact .inr ⟨same ▸ others j own,.inl ⟨j,same,value⟩⟩
  · exact .inr ⟨same ▸ deltas d member,.inr ⟨d,member,same,value⟩⟩

theorem clean_step {s : LwwNetwork ι} {e : LwwEvent ι} (coherent : Coherent s) (i : ι)
    (settled : ((step lww s e).node i).dirty = false) :
    ((step lww s e).node i).timestamp = 0 ∨ ∃ d ∈ (step lww s e).sent,
      wireStamp d.2 = ((step lww s e).node i).stamp ∧ d.2.drop headerSize = ((step lww s e).node i).value := by
  -- A replica that a step leaves alone stays covered by the deltas sent before.
  have kept : (step lww s e).node i = s.node i → ((step lww s e).node i).timestamp = 0 ∨
      ∃ d ∈ (step lww s e).sent, wireStamp d.2 = ((step lww s e).node i).stamp ∧
        d.2.drop headerSize = ((step lww s e).node i).value := by
    intro same
    rw [same] at settled ⊢
    rcases coherent.clean i settled with untouched | ⟨d,member,covered⟩
    · exact .inl untouched
    · exact .inr ⟨d,(sent_grows e).subset member,covered⟩
  cases e with
  | act j w =>
    by_cases own : i = j
    · subst own
      simp [step,lww,LwwRegister.set] at settled
    · exact kept (by simp [step,own])
  | emit j =>
    by_cases own : i = j
    · subst own
      have node : (step lww s (.emit i)).node i = { s.node i with dirty := false } := by simp [step,delta_state]
      cases pending : (s.node i).dirty with
      | false => exact kept (by rw [node,← pending])
      | true =>
        refine .inr ⟨(i,(s.node i).encodeState),?_,?_,?_⟩
        · simp [step,lww,LwwRegister.delta,pending,← List.length_eq_zero_iff,headerSize]
        · rw [node]; exact wireStamp_encodeState _
        · rw [node]; exact drop_encodeState _
    · exact kept (by simp [step,own])
  | deliver j k =>
    obtain ⟨sent,nodes⟩ := deliver_node s j k
    rcases nodes i with same | ⟨d,member,stamped,valued⟩
    · exact kept same
    · exact .inr ⟨d,by rw [sent]; exact member,stamped.symm,valued.symm⟩

theorem coherent_step {s : LwwNetwork ι} {e : LwwEvent ι} (coherent : Coherent s) (fresh : FreshWrite s e) :
    Coherent (step lww s e) where
  known := mergedSent_step e coherent.known
  above := growing.above_step fresh coherent.known coherent.above
  unique st v v' carried carried' := by
    cases e with
    | act i w =>
      rcases carried_act fresh carried with ⟨new,written⟩ | ⟨old,before⟩
      · rcases carried_act fresh carried' with ⟨_,written'⟩ | ⟨old',_⟩
        · rw [written,written']
        · exact absurd new old'
      · rcases carried_act fresh carried' with ⟨new',_⟩ | ⟨_,before'⟩
        · exact absurd new' old
        · exact coherent.unique st v v' before before'
    | emit i => exact coherent.unique st v v' (carried_emit carried) (carried_emit carried')
    | deliver i k => exact coherent.unique st v v' (carried_deliver carried) (carried_deliver carried')
  clean i settled := clean_step coherent i settled

/-! ### Whole runs -/

theorem timestamp_le_of_stamp_le {r r' : LwwRegister} (le : r.stamp ≤ r'.stamp) :
    r.timestamp.toNat ≤ r'.timestamp.toNat := by
  rcases Prod.Lex.toLex_le_toLex.mp le with lt | ⟨same,_⟩
  · exact lt.le
  · exact same.le

/-- A fresh write leaves a timestamp that is not 0, and no later step undoes that. -/
theorem touched_run {s : LwwNetwork ι} {es : List (LwwEvent ι)} (fresh : Along (step lww) FreshWrite s es)
    (wrote : ∃ i w, Event.act i w ∈ es) : ∃ i, (((run (step lww) s es).node i).timestamp) ≠ 0 := by
  have later : ∀ (s : LwwNetwork ι) (es : List (LwwEvent ι)) (i : ι), Along (step lww) FreshWrite s es →
      (s.node i).stamp ≤ ((run (step lww) s es).node i).stamp := by
    intro s es i along
    refine along.run_invariant (I := fun s' => (s.node i).stamp ≤ (s'.node i).stamp) ?_ le_rfl
    exact fun s' e le ok => le.trans (growing.node_le ok i)
  induction es generalizing s with
  | nil => obtain ⟨i,w,member⟩ := wrote; cases member
  | cons e es ih =>
    obtain ⟨i,w,member⟩ := wrote
    rcases List.mem_cons.mp member with rfl | member
    · refine ⟨i,fun zero => ?_⟩
      have written : ((step lww s (.act i w)).node i).timestamp = w.timestampUs := by
        simp [step,lww,LwwRegister.set]
      have grown := timestamp_le_of_stamp_le (later _ es i fresh.2)
      have above := UInt32.lt_iff_toNat_lt.mp fresh.1.1
      rw [written,← run_cons,zero] at grown
      simp at grown
      omega
    · exact ih fresh.2 ⟨i,w,member⟩

/-- In a settled network with nothing pending, every replica is above each one
    that holds a write. -/
theorem settled_le {s : LwwNetwork ι} (coherent : Coherent s) (settled : Settled s)
    (quiet : ∀ i, (s.node i).hasPendingDelta = false) {i j : ι} (wrote : (s.node i).timestamp ≠ 0) :
    (s.node i).stamp ≤ (s.node j).stamp := by
  obtain ⟨d,member,stamped,_⟩ := (coherent.clean i (quiet i)).resolve_left wrote
  obtain ⟨k,inside,rfl⟩ := List.mem_iff_getElem.mp member
  have found : s.sent[k]? = some s.sent[k] := List.getElem?_eq_getElem inside
  rw [← stamped]
  refine coherent.above j k _ found ?_
  by_cases own : j = s.sent[k].1
  · exact .inl ⟨s.sent[k].2,by rw [found,own]⟩
  · exact .inr (settled j k inside own)

/-- Replicas whose writes are all fresh converge. -/
theorem lww_converges (ids : ι → UInt16) (es : List (LwwEvent ι)) (fresh : Along (step lww) FreshWrite (begin ids) es) :
    Converges ids es := by
  intro _ wrote settled quiet
  have coherent : Coherent (run (step lww) (begin ids) es) :=
    fresh.run_invariant (fun _ _ held ok => coherent_step held ok) (coherent_begin ids)
  obtain ⟨first,touched⟩ := touched_run fresh wrote
  generalize run (step lww) (begin ids) es = s at *
  -- The write reached every replica, so none is untouched.
  have all : ∀ i, (s.node i).timestamp ≠ 0 := by
    intro i zero
    have le := timestamp_le_of_stamp_le (settled_le coherent settled quiet touched (j := i))
    rw [zero] at le
    exact touched (UInt32.toNat_inj.mp (by simpa using le))
  intro i j
  have same : (s.node i).stamp = (s.node j).stamp :=
    le_antisymm (settled_le coherent settled quiet (all i)) (settled_le coherent settled quiet (all j))
  refine ⟨coherent.unique _ _ _ (.inl ⟨i,same,rfl⟩) (.inl ⟨j,rfl,rfl⟩),stampOf_injective same⟩

/-- Two replicas, with the node ids 1 and 2. -/
def twoIds (second : Bool) : UInt16 := if second then 2 else 1

/-- Each of two replicas writes after merging what the other wrote. -/
theorem lww_converges_in_turn :
    Agree (run (step lww) (begin twoIds)
      [.act false ⟨[7],5⟩,.emit false,.deliver true 0,.act true ⟨[8],9⟩,.emit true,.deliver false 1]) :=
  lww_converges twoIds _ (by decide +kernel) (by decide +kernel) ⟨false,⟨[7],5⟩,by decide⟩ (by decide +kernel)
    (by decide +kernel)

/-- The first replica merges a write of time 10 and then writes at its own time 5:
    it keeps its write, which the other refuses. -/
theorem diverges_after_older_write : Function.Injective twoIds ∧
    ¬ Converges twoIds
      [.act true ⟨[8],10⟩,.emit true,.deliver false 0,.act false ⟨[7],5⟩,.emit false,.deliver true 1] := by
  refine ⟨by decide,fun converges => ?_⟩
  have agree := converges (by decide +kernel) ⟨true,⟨[8],10⟩,by decide⟩ (by decide +kernel) (by decide +kernel)
  exact absurd (agree false true).1 (by decide)

-- Both replicas write at time 20, and both writes carry the node id 2.
example : ¬ Converges twoIds
    [.act true ⟨[8],10⟩,.emit true,.deliver false 0,.act false ⟨[7],20⟩,.emit false,.act true ⟨[9],20⟩,.emit true,
      .deliver true 1,.deliver false 2] := by
  intro converges
  have agree := converges (by decide +kernel) ⟨true,⟨[8],10⟩,by decide⟩ (by decide +kernel) (by decide +kernel)
  exact absurd (agree false true).1 (by decide)

end Rom.LwwRuns
