import Mathlib.Data.List.Basic

/-!
Runs of a deterministic system. A system is a step function on states, driven by
events; a run is a list of events. `Along` says that every step of a run meets a
condition on the state before it and its event, `Everywhere` that every state of
a run, the first and the last included, meets a property. An invariant that steps
keep holds along a run (`Along.run_invariant`), and where each step keeps a
property exactly under a condition, the runs that keep it everywhere are exactly
those whose steps all meet the condition (`everywhere_iff_along`). A run goes only
one way when no step goes back (`oneWay_iff_along`). Steps may also put something
out (`outputs`); runs of two systems whose states stay related put out the same
(`outputs_simulation`), and events that put out nothing may be left out where the
states with and without them stay related (`outputs_filter`, or exactly under a
condition on the steps, `along_outputs_filter_iff`).
-/
namespace Rom.Runs
variable {State Event : Type*}

/-- The state that a list of events leads to. -/
def run (step : State → Event → State) (s : State) (es : List Event) : State := es.foldl step s

/-- Every step of the run meets the condition. -/
def Along (step : State → Event → State) (P : State → Event → Prop) : State → List Event → Prop
  | _, [] => True
  | s, e :: es => P s e ∧ Along step P (step s e) es

/-- Every state of the run has the property. -/
def Everywhere (step : State → Event → State) (Q : State → Prop) : State → List Event → Prop
  | s, [] => Q s
  | s, e :: es => Q s ∧ Everywhere step Q (step s e) es

/-- Each state of the run is at or behind every earlier one. -/
def OneWay (step : State → Event → State) (R : State → State → Prop) (s : State) (es : List Event) : Prop :=
  ∀ before between after, es = before ++ between ++ after → R (run step s before) (run step s (before ++ between))

/-- What the steps of the run put out, in order. -/
def outputs {Output : Type*} (step : State → Event → State) (out : State → Event → List Output) :
    State → List Event → List Output
  | _, [] => []
  | s, e :: es => out s e ++ outputs step out (step s e) es

instance decidableAlong (step : State → Event → State) (P : State → Event → Prop) [∀ s e, Decidable (P s e)] :
    ∀ (s : State) (es : List Event), Decidable (Along step P s es)
  | _, [] => isTrue trivial
  | s, e :: es => @instDecidableAnd _ _ _ (decidableAlong step P (step s e) es)

instance decidableEverywhere (step : State → Event → State) (Q : State → Prop) [∀ s, Decidable (Q s)] :
    ∀ (s : State) (es : List Event), Decidable (Everywhere step Q s es)
  | s, [] => inferInstanceAs (Decidable (Q s))
  | s, e :: es => @instDecidableAnd _ _ _ (decidableEverywhere step Q (step s e) es)

section
variable {step : State → Event → State} {s : State} {es : List Event}

@[simp] theorem run_nil : run step s [] = s := rfl
@[simp] theorem run_cons (e : Event) : run step s (e :: es) = run step (step s e) es := rfl

theorem run_append (fs : List Event) : run step s (es ++ fs) = run step (run step s es) fs := List.foldl_append

theorem along_append {P : State → Event → Prop} (fs : List Event) :
    Along step P s (es ++ fs) ↔ Along step P s es ∧ Along step P (run step s es) fs := by
  induction es generalizing s with
  | nil => simp [Along]
  | cons e es ih => rw [List.cons_append,Along,Along,ih,run_cons,and_assoc]

/-- An invariant that every step meeting the condition keeps holds at the end. -/
theorem Along.run_invariant {P : State → Event → Prop} {I : State → Prop}
    (keeps : ∀ s e, I s → P s e → I (step s e)) (along : Along step P s es) (start : I s) : I (run step s es) := by
  induction es generalizing s with
  | nil => exact start
  | cons e es ih => exact ih along.2 (keeps s e start along.1)

/-- A condition on events that all events meet joins one along the run. -/
theorem Along.and_of_forall {P : State → Event → Prop} {Q : Event → Prop} (along : Along step P s es)
    (all : ∀ e ∈ es, Q e) : Along step (fun s e => P s e ∧ Q e) s es := by
  induction es generalizing s with
  | nil => trivial
  | cons e es ih =>
    exact ⟨⟨along.1,all e List.mem_cons_self⟩,ih along.2 (fun e member => all e (List.mem_cons_of_mem _ member))⟩

/-- An invariant that every step keeps holds at the end of every run. -/
theorem run_invariant {I : State → Prop} (keeps : ∀ s e, I s → I (step s e)) (start : I s) :
    I (run step s es) := by
  induction es generalizing s with
  | nil => exact start
  | cons e es ih => exact ih (keeps s e start)

/-- An invariant that the steps of some events keep holds at the end of their runs. -/
theorem run_invariant_of_forall {I : State → Prop} {P : Event → Prop} (keeps : ∀ s e, P e → I s → I (step s e))
    (all : ∀ e ∈ es, P e) (start : I s) : I (run step s es) := by
  induction es generalizing s with
  | nil => exact start
  | cons e es ih =>
    exact ih (fun e member => all e (List.mem_cons_of_mem _ member)) (keeps s e (all e List.mem_cons_self) start)

/-- Conditions that agree on the states of an invariant agree along runs. -/
theorem along_congr {P Q : State → Event → Prop} {I : State → Prop} (keeps : ∀ s e, I s → I (step s e))
    (agree : ∀ s e, I s → (P s e ↔ Q s e)) (start : I s) : Along step P s es ↔ Along step Q s es := by
  induction es generalizing s with
  | nil => exact Iff.rfl
  | cons e es ih => exact and_congr (agree s e start) (ih (keeps s e start))

/-- Conditions that agree on the steps of a run agree along it. -/
theorem Along.congr {P Q R : State → Event → Prop} (agree : ∀ s e, P s e → (Q s e ↔ R s e)) (along : Along step P s es) :
    Along step Q s es ↔ Along step R s es := by
  induction es generalizing s with
  | nil => exact Iff.rfl
  | cons e es ih => exact and_congr (agree s e along.1) (ih along.2)

/-- Properties that agree on the states of an invariant agree everywhere. -/
theorem everywhere_congr {P Q I : State → Prop} (keeps : ∀ s e, I s → I (step s e)) (agree : ∀ s, I s → (P s ↔ Q s))
    (start : I s) : Everywhere step P s es ↔ Everywhere step Q s es := by
  induction es generalizing s with
  | nil => exact agree s start
  | cons e es ih => exact and_congr (agree s start) (ih (keeps s e start))

/-- A condition that implies another on the states of an invariant does so along runs. -/
theorem Along.imp {P Q : State → Event → Prop} {I : State → Prop} (keeps : ∀ s e, I s → I (step s e))
    (gives : ∀ s e, I s → P s e → Q s e) (along : Along step P s es) (start : I s) : Along step Q s es := by
  induction es generalizing s with
  | nil => trivial
  | cons e es ih => exact ⟨gives s e start along.1,ih along.2 (keeps s e start)⟩

/-- Two systems whose steps agree under a condition agree on the runs that meet it. -/
theorem Along.run_congr {step' : State → Event → State} {P : State → Event → Prop} {I : State → Prop}
    (keeps : ∀ s e, I s → I (step s e)) (same : ∀ s e, I s → P s e → step' s e = step s e) (along : Along step P s es)
    (start : I s) : run step' s es = run step s es := by
  induction es generalizing s with
  | nil => rfl
  | cons e es ih =>
    rw [run_cons,run_cons,same s e start along.1]
    exact ih along.2 (keeps s e start)

/-- A condition that every step from an invariant meets holds along every run. -/
theorem along_of_forall {P : State → Event → Prop} {I : State → Prop} (keeps : ∀ s e, I s → I (step s e))
    (meets : ∀ s e, I s → P s e) (start : I s) : Along step P s es := by
  induction es generalizing s with
  | nil => trivial
  | cons e es ih => exact ⟨meets s e start,ih (keeps s e start)⟩

theorem Everywhere.here {Q : State → Prop} (all : Everywhere step Q s es) : Q s := by
  cases es with
  | nil => exact all
  | cons e es => exact all.1

/-- What an invariant implies holds in every state of a run. -/
theorem Along.everywhere {P : State → Event → Prop} {I Q : State → Prop}
    (keeps : ∀ s e, I s → P s e → I (step s e)) (gives : ∀ s, I s → Q s) (along : Along step P s es) (start : I s) :
    Everywhere step Q s es := by
  induction es generalizing s with
  | nil => exact gives s start
  | cons e es ih => exact ⟨gives s start,ih along.2 (keeps s e start along.1)⟩

theorem everywhere_of_forall {I : State → Prop} (keeps : ∀ s e, I s → I (step s e)) (start : I s) :
    Everywhere step I s es := by
  induction es generalizing s with
  | nil => exact start
  | cons e es ih => exact ⟨start,ih (keeps s e start)⟩

/-- An invariant that steps keep as long as a property holds everywhere. -/
theorem Everywhere.carry {B I Q : State → Prop} (keeps : ∀ s e, B s → I s → I (step s e)) (gives : ∀ s, B s → I s → Q s)
    (all : Everywhere step B s es) (start : I s) : Everywhere step Q s es := by
  induction es generalizing s with
  | nil => exact gives s all start
  | cons e es ih => exact ⟨gives s all.1 start,ih all.2 (keeps s e all.1 start)⟩

theorem Everywhere.append {Q : State → Prop} {fs : List Event} (all : Everywhere step Q s (es ++ fs)) :
    Everywhere step Q s es := by
  induction es generalizing s with
  | nil => exact all.here
  | cons e es ih => exact ⟨all.1,ih all.2⟩

theorem Everywhere.last {Q : State → Prop} (all : Everywhere step Q s es) : Q (run step s es) := by
  induction es generalizing s with
  | nil => exact all
  | cons e es ih => exact ih all.2

/-- If each step keeps `Q` exactly when it meets `P`, a run keeps `Q` exactly
    when all its steps meet `P`. -/
theorem everywhere_iff_along {P : State → Event → Prop} {Q I : State → Prop}
    (keeps : ∀ s e, I s → I (step s e)) (exact : ∀ s e, I s → Q s → (Q (step s e) ↔ P s e))
    (start : I s) (first : Q s) : Everywhere step Q s es ↔ Along step P s es := by
  induction es generalizing s with
  | nil => exact ⟨fun _ => trivial,fun _ => first⟩
  | cons e es ih =>
    constructor
    · rintro ⟨_,later⟩
      have next : Q (step s e) := later.here
      exact ⟨(exact s e start first).mp next,(ih (keeps s e start) next).mp later⟩
    · rintro ⟨here,later⟩
      have next : Q (step s e) := (exact s e start first).mpr here
      exact ⟨first,(ih (keeps s e start) next).mpr later⟩

/-- If each step from a state of `Q` meets `P` and keeps `Q` exactly when it meets
    `R`, a run meets `P` along it and `Q` everywhere exactly when it meets `R`. -/
theorem along_everywhere_iff_along {P R : State → Event → Prop} {Q I : State → Prop}
    (keeps : ∀ s e, I s → I (step s e)) (exact : ∀ s e, I s → Q s → (P s e ∧ Q (step s e) ↔ R s e))
    (start : I s) (first : Q s) : Along step P s es ∧ Everywhere step Q s es ↔ Along step R s es := by
  induction es generalizing s with
  | nil => exact ⟨fun _ => trivial,fun _ => ⟨trivial,first⟩⟩
  | cons e es ih =>
    constructor
    · rintro ⟨⟨here,along⟩,_,later⟩
      have next : Q (step s e) := later.here
      exact ⟨(exact s e start first).mp ⟨here,next⟩,(ih (keeps s e start) next).mp ⟨along,later⟩⟩
    · rintro ⟨here,along⟩
      obtain ⟨meets,next⟩ := (exact s e start first).mpr here
      obtain ⟨rest,later⟩ := (ih (keeps s e start) next).mpr along
      exact ⟨⟨meets,rest⟩,first,later⟩

/-- For a preorder, a run goes one way when each of its steps does. -/
theorem oneWay_iff_along {R : State → State → Prop} (refl : ∀ s, R s s) (trans : ∀ s t u, R s t → R t u → R s u) :
    OneWay step R s es ↔ Along step (fun s e => R s (step s e)) s es := by
  constructor
  · intro oneWay
    induction es generalizing s with
    | nil => trivial
    | cons e es ih =>
      refine ⟨oneWay [] [e] es rfl,ih ?_⟩
      intro before between after split
      exact oneWay (e :: before) between after (by rw [split]; rfl)
  · intro along before between after split
    subst split
    obtain ⟨front,_⟩ := (along_append after).mp along
    obtain ⟨_,middle⟩ := (along_append between).mp front
    rw [run_append]
    exact middle.run_invariant (I := R (run step s before)) (fun s e reached forth => trans _ _ _ reached forth) (refl _)

theorem outputs_append {Output : Type*} (out : State → Event → List Output) (fs : List Event) :
    outputs step out s (es ++ fs) = outputs step out s es ++ outputs step out (run step s es) fs := by
  induction es generalizing s with
  | nil => rfl
  | cons e es ih => rw [List.cons_append,outputs,ih,outputs,run_cons,List.append_assoc]

theorem map_outputs {Output Output' : Type*} (g : Output → Output') (out : State → Event → List Output) :
    (outputs step out s es).map g = outputs step (fun s e => (out s e).map g) s es := by
  induction es generalizing s with
  | nil => rfl
  | cons e es ih => rw [outputs,outputs,List.map_append,ih]

/-- What an invariant of runs of some events says of each output. -/
theorem forall_outputs {Output : Type*} {out : State → Event → List Output} {P : Event → Prop} {I : State → Prop}
    {D : Output → Prop} (keeps : ∀ s e, I s → P e → I (step s e)) (gives : ∀ s e, I s → P e → ∀ o ∈ out s e, D o)
    (start : I s) (all : ∀ e ∈ es, P e) : ∀ o ∈ outputs step out s es, D o := by
  induction es generalizing s with
  | nil =>
    intro o member
    cases member
  | cons e es ih =>
    have first := all e List.mem_cons_self
    intro o member
    rcases List.mem_append.mp member with here | later
    · exact gives s e start first o here
    · exact ih (keeps s e start first) (fun e member => all e (List.mem_cons_of_mem _ member)) o later

/-- Where the output of a step depends on its event only, so does that of a run. -/
theorem outputs_eq_flatMap {Output : Type*} {out : State → Event → List Output} {f : Event → List Output}
    {I : State → Prop} (keeps : ∀ s e, I s → I (step s e)) (same : ∀ s e, I s → out s e = f e) (start : I s) :
    outputs step out s es = es.flatMap f := by
  induction es generalizing s with
  | nil => rfl
  | cons e es ih => rw [outputs,same s e start,ih (keeps s e start),List.flatMap_cons]

/-- A run puts out the same as one of another system that takes a list of events for
    each of its events, if a relation between the states of the two goes on to hold.
    The relation may look at the events to come. -/
theorem outputs_simulation {State' Event' Output : Type*} {step' : State' → Event' → State'}
    {out : State → Event → List Output} {out' : State' → Event' → List Output} {R : State → State' → List Event → Prop}
    {f : Event → List Event'}
    (same : ∀ s t e es, R s t (e :: es) → out s e = outputs step' out' t (f e) ∧ R (step s e) (run step' t (f e)) es)
    {t : State'} (start : R s t es) : outputs step out s es = outputs step' out' t (es.flatMap f) := by
  induction es generalizing s t with
  | nil => rfl
  | cons e es ih =>
    obtain ⟨here,later⟩ := same s t e es start
    rw [List.flatMap_cons,outputs_append,outputs,here,ih later]

theorem filter_eq_flatMap (loud : Event → Bool) (es : List Event) :
    es.filter loud = es.flatMap (fun e => if loud e then [e] else []) := by
  induction es with
  | nil => rfl
  | cons e es ih =>
    rw [List.flatMap_cons,← ih,List.filter_cons]
    split
    · rfl
    · rfl

/-- Leaving out silent events changes no output, if the states with and without them
    stay in a relation under which the other events put out the same. -/
theorem outputs_filter {Output : Type*} {out : State → Event → List Output} {R : State → State → List Event → Prop}
    {loud : Event → Bool}
    (same : ∀ s t e es, R s t (e :: es) → loud e = true → out s e = out t e ∧ R (step s e) (step t e) es)
    (silent : ∀ s t e es, R s t (e :: es) → loud e = false → out s e = [] ∧ R (step s e) t es) {t : State}
    (start : R s t es) : outputs step out s es = outputs step out t (es.filter loud) := by
  rw [filter_eq_flatMap]
  refine outputs_simulation ?_ start
  intro s t e es related
  cases heard : loud e with
  | true =>
    obtain ⟨here,later⟩ := same s t e es related heard
    exact ⟨here.trans (List.append_nil _).symm,later⟩
  | false => exact silent s t e es related heard

/-- Where a step meets `P` and puts out the same as without the silent events exactly
    when it meets `C`, so does a run. -/
theorem along_outputs_filter_iff {Output : Type*} {out : State → Event → List Output} {P C : State → Event → Prop}
    {R : State → State → Prop} {loud : Event → Bool}
    (exact : ∀ s t e, R s t → loud e = true → (out s e).length = (out t e).length ∧ (P s e ∧ out s e = out t e ↔ C s e) ∧
      (C s e → R (step s e) (step t e)))
    (silent : ∀ s t e, R s t → loud e = false → (out s e = [] ∧ P s e ∧ C s e) ∧ R (step s e) t) {t : State}
    (start : R s t) :
    Along step P s es ∧ outputs step out s es = outputs step out t (es.filter loud) ↔ Along step C s es := by
  induction es generalizing s t with
  | nil => exact ⟨fun _ => trivial,fun _ => ⟨trivial,rfl⟩⟩
  | cons e es ih =>
    cases heard : loud e with
    | true =>
      obtain ⟨size,here,next⟩ := exact s t e start heard
      rw [List.filter_cons_of_pos heard,Along,Along,outputs,outputs]
      constructor
      · rintro ⟨⟨meets,along⟩,same⟩
        obtain ⟨first,later⟩ := List.append_inj same size
        have holds := here.mp ⟨meets,first⟩
        exact ⟨holds,(ih (next holds)).mp ⟨along,later⟩⟩
      · rintro ⟨holds,along⟩
        obtain ⟨meets,first⟩ := here.mpr holds
        obtain ⟨rest,later⟩ := (ih (next holds)).mpr along
        exact ⟨⟨meets,rest⟩,by rw [first,later]⟩
    | false =>
      obtain ⟨⟨nothing,meets,holds⟩,next⟩ := silent s t e start heard
      rw [List.filter_cons_of_neg (by rw [heard]; decide),Along,Along,outputs,nothing,List.nil_append,and_iff_right meets,
        and_iff_right holds]
      exact ih next

end
end Rom.Runs
