import Rom.Runs

/-!
One system as a reading of another. Each step of the system below is read as some
steps of the one above, none, one or several, which may depend on the state; states
are read along with them. If each step is so read from the states of an invariant, each
run is (`read_run`), and what a run above keeps holds of the reading of a run below.
-/
namespace Rom.Refinement
open Rom.Runs
variable {State Event State' Event' : Type*} {step : State → Event → State} {step' : State' → Event' → State'}

/-- The step is read as steps above that meet a condition. -/
def ReadsAs (step : State → Event → State) (step' : State' → Event' → State') (C : State' → Event' → Prop)
    (abs : State → State') (f : State → Event → List Event') (s : State) (e : Event) : Prop :=
  abs (step s e) = run step' (abs s) (f s e) ∧ Along step' C (abs s) (f s e)

/-- A condition on events alone. -/
theorem along_of_mem {P : Event → Prop} {s : State} {es : List Event} (all : ∀ e ∈ es, P e) :
    Along step (fun _ e => P e) s es := by
  induction es generalizing s with
  | nil => trivial
  | cons e es ih => exact ⟨all e List.mem_cons_self,ih (fun e member => all e (List.mem_cons_of_mem _ member))⟩

theorem read_run {C : State' → Event' → Prop} {abs : State → State'} {f : State → Event → List Event'} {I : State → Prop}
    {Q : State → Event → Prop} (reads : ∀ s e, I s → Q s e → I (step s e) ∧ ReadsAs step step' C abs f s e) {s : State}
    {es : List Event} (start : I s) (all : Along step Q s es) :
    I (run step s es) ∧ abs (run step s es) = run step' (abs s) (outputs step f s es) ∧
      Along step' C (abs s) (outputs step f s es) := by
  induction es generalizing s with
  | nil => exact ⟨start,rfl,trivial⟩
  | cons e es ih =>
    obtain ⟨next,same,meets⟩ := reads s e start all.1
    obtain ⟨last,later,along⟩ := ih next all.2
    rw [same] at later along
    refine ⟨last,?_,?_⟩
    · rw [run_cons,outputs,run_append,later]
    · rw [outputs,along_append]
      exact ⟨meets,along⟩

end Rom.Refinement
