import Rom.Replication

/-!
Causal delivery of deltas. Beside a network, a history keeps for each delta the
deltas that its author had handed out or merged before it. A delta is delivered
in turn when the receiver has not absorbed it and has absorbed all of these
(`InTurn`). Then what had reached the author with a delta has reached every
replica that has absorbed the delta (`received_of_shown`).
-/
namespace Rom.Causality
open Rom.Runs Rom.Replication
variable {ι R Op M : Type*} [DecidableEq ι]

/-- A network, and for each delta those before it. -/
structure History (ι R M : Type*) where
  net : Network ι R M
  past : List (List Nat)

/-- The deltas that a replica has handed out or merged. -/
def absorbedBy (s : Network ι R M) (i : ι) : List Nat := (List.range s.sent.length).filter (fun k => Absorbed s i k)

def start (init : ι → R) : History ι R M := ⟨Replication.start init,[]⟩

/-- What was before the delta that an event hands out. -/
def newPast (obj : Object R Op M) (s : Network ι R M) : Event ι Op → List (List Nat)
  | .emit i => ((obj.delta (s.node i)).1.map (fun _ => absorbedBy s i)).toList
  | _ => []

def step (obj : Object R Op M) (s : History ι R M) (e : Event ι Op) : History ι R M :=
  ⟨Replication.step obj s.net e,s.past ++ newPast obj s.net e⟩

/-- A delta is delivered once, and after all deltas before it. -/
def InTurn (s : History ι R M) : Event ι Op → Prop
  | .deliver i k => ¬ Absorbed s.net i k ∧ ∀ past ∈ s.past[k]?, ∀ m ∈ past, Absorbed s.net i m
  | _ => True

instance (s : History ι R M) (e : Event ι Op) : Decidable (InTurn s e) :=
  match e with
  | .act _ _ => isTrue trivial
  | .emit _ => isTrue trivial
  | .deliver i k =>
    inferInstanceAs (Decidable (¬ Absorbed s.net i k ∧ ∀ past ∈ s.past[k]?, ∀ m ∈ past, Absorbed s.net i m))

/-- A replica that has absorbed a delta has absorbed those before it. -/
structure Closed (s : History ι R M) : Prop where
  merged : MergedSent s.net
  length : s.past.length = s.net.sent.length
  past : ∀ i k, Absorbed s.net i k → ∀ past ∈ s.past[k]?, ∀ m ∈ past, Absorbed s.net i m

/-- The delta, or one of those before it, has the property. -/
def Shown (s : History ι R M) (k : Nat) (C : M → Prop) : Prop :=
  ∃ m d, (m = k ∨ ∃ past ∈ s.past[k]?, m ∈ past) ∧ s.net.sent[m]? = some d ∧ C d.2

variable {obj : Object R Op M} {s : History ι R M}

omit [DecidableEq ι] in
theorem absorbed_inside {i : ι} {k : Nat} (merged : MergedSent s.net) (absorbed : Absorbed s.net i k) :
    k < s.net.sent.length := by
  rcases absorbed with ⟨d,found⟩ | member
  · exact (List.getElem?_eq_some_iff.mp found).1
  · exact merged i k member

omit [DecidableEq ι] in
theorem closed_start (init : ι → R) : Closed (start init : History ι R M) := by
  constructor
  · intro i k member
    cases member
  · rfl
  · intro i k _ past found
    cases found

theorem past_kept {k : Nat} {past : List Nat} (found : s.past[k]? = some past) (e : Event ι Op) :
    (step obj s e).past[k]? = some past := by
  obtain ⟨inside,rfl⟩ := List.getElem?_eq_some_iff.mp found
  rw [step,List.getElem?_append_left inside,List.getElem?_eq_getElem inside]

/-- The pasts of a step are the old ones, and behind them that of the delta it
    hands out. -/
theorem past_cases {e : Event ι Op} {k : Nat} {past : List Nat} (found : (step obj s e).past[k]? = some past) :
    s.past[k]? = some past ∨
      k = s.past.length ∧ ∃ i d, e = .emit i ∧ (obj.delta (s.net.node i)).1 = some d ∧ past = absorbedBy s.net i := by
  by_cases old : k < s.past.length
  · rw [step,List.getElem?_append_left old] at found
    exact .inl found
  · rw [step,List.getElem?_append_right (Nat.not_lt.mp old)] at found
    cases e with
    | act i op => simp [newPast] at found
    | deliver i n => simp [newPast] at found
    | emit i =>
      cases emitted : (obj.delta (s.net.node i)).1 with
      | none => simp [newPast,emitted] at found
      | some d =>
        simp only [newPast,emitted,Option.map_some,Option.toList_some,List.getElem?_singleton] at found
        split at found
        · next here =>
          cases found
          exact .inr ⟨by omega,i,d,rfl,emitted,rfl⟩
        · cases found

theorem mem_absorbedBy (merged : MergedSent s.net) {i : ι} {k : Nat} :
    k ∈ absorbedBy s.net i ↔ Absorbed s.net i k := by
  rw [absorbedBy,List.mem_filter,List.mem_range,decide_eq_true_eq]
  exact ⟨fun both => both.2,fun absorbed => ⟨absorbed_inside merged absorbed,absorbed⟩⟩

theorem length_step (length : s.past.length = s.net.sent.length) (e : Event ι Op) :
    (step obj s e).past.length = (step obj s e).net.sent.length := by
  cases e with
  | act i op =>
    simp only [step,newPast,List.append_nil]
    exact length
  | deliver i k =>
    simp only [step,newPast,Replication.step,List.append_nil]
    split
    · exact length
    · exact length
  | emit i =>
    simp only [step,newPast,Replication.step,List.length_append,length]
    cases (obj.delta (s.net.node i)).1 with
    | none => rfl
    | some d => rfl

theorem absorbed_kept {i : ι} {k : Nat} (absorbed : Absorbed s.net i k) (e : Event ι Op) :
    Absorbed (step obj s e).net i k :=
  (absorbed_step e i k).mpr (.inl absorbed)

theorem closed_step {e : Event ι Op} (closed : Closed s) (inTurn : InTurn s e) : Closed (step obj s e) where
  merged := mergedSent_step e closed.merged
  length := length_step closed.length e
  past := by
    intro i k absorbed past found m member
    rcases past_cases found with old | ⟨new,j,d,rfl,emitted,rfl⟩
    · rcases (absorbed_step e i k).mp absorbed with before | ⟨rfl,rfl,_⟩ | ⟨rfl,_⟩
      · exact absorbed_kept (closed.past i k before past old m member) e
      · -- the new delta has no past yet
        have inside := (List.getElem?_eq_some_iff.mp old).1
        rw [closed.length] at inside
        exact absurd inside (Nat.lt_irrefl _)
      · exact absorbed_kept (inTurn.2 past old m member) _
    · have known := (mem_absorbedBy closed.merged).mp member
      rcases (absorbed_step (.emit j) i k).mp absorbed with before | ⟨same,_⟩ | ⟨same,_⟩
      · have inside := absorbed_inside closed.merged before
        rw [new,closed.length] at inside
        exact absurd inside (Nat.lt_irrefl _)
      · cases same
        exact absorbed_kept known _
      · cases same

omit [DecidableEq ι] in
/-- What a delta or one before it states has reached whoever absorbed the delta. -/
theorem received_of_shown (closed : Closed s) {i : ι} {k : Nat} (absorbed : Absorbed s.net i k) {C : M → Prop}
    (shown : Shown s k C) : Received s.net i C := by
  obtain ⟨m,d,here,found,holds⟩ := shown
  refine received_iff.mpr ⟨m,d,found,?_,holds⟩
  rcases here with rfl | ⟨past,at_k,member⟩
  · exact absorbed
  · exact closed.past i k absorbed past at_k m member

theorem shown_kept {k : Nat} {C : M → Prop} (shown : Shown s k C) (e : Event ι Op) : Shown (step obj s e) k C := by
  obtain ⟨m,d,here,found,holds⟩ := shown
  refine ⟨m,d,?_,sent_kept found e,holds⟩
  rcases here with rfl | ⟨past,at_k,member⟩
  · exact .inl rfl
  · exact .inr ⟨past,past_kept at_k e,member⟩

/-- What the author of a delta holds is shown with the delta. -/
theorem shown_of_held (closed : Closed s) {j : ι} {d : M} (emitted : (obj.delta (s.net.node j)).1 = some d)
    {pending : R → Prop} {stated : M → Prop} (handed : pending (s.net.node j) → stated d)
    (held : Held s.net j pending stated) : Shown (step obj s (.emit j)) s.net.sent.length stated := by
  rcases held with here | received
  · refine ⟨s.net.sent.length,(j,d),.inl rfl,?_,handed here⟩
    simp [step,Replication.step,emitted]
  · obtain ⟨m,d',found,absorbed,holds⟩ := received_iff.mp received
    refine ⟨m,d',.inr ⟨absorbedBy s.net j,?_,(mem_absorbedBy closed.merged).mpr absorbed⟩,sent_kept found _,holds⟩
    simp [step,newPast,emitted,← closed.length]

end Rom.Causality
