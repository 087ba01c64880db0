import Rom.Runs

/-!
Channels of a system that are first in, first out. Each step of the system moves a
channel: the channel is kept, something is put in, a reader takes what is first, or it
is emptied. Along every run, what has left a channel and what is still in it are
together, and in order, what it held at first and what was put in
(`Channel.gone_append`); where it is never emptied, all that left it was read
(`Channel.taken_gone`).
-/
namespace Rom.Channels
open Rom.Runs
variable {State Event α β : Type*}

/-- What a step does to a channel of `α`s that is read by `β`s. -/
inductive Move (α β : Type*) where
  | keep
  | push (x : α)
  | pop (reader : β)
  | clear

namespace Move

def apply : Move α β → List α → List α
  | .keep, q => q
  | .push x, q => q ++ [x]
  | .pop _, q => q.tail
  | .clear, _ => []

def entering : Move α β → List α
  | .push x => [x]
  | _ => []

/-- What leaves the channel, each with its reader if one took it. -/
def leaving : Move α β → List α → List (α × Option β)
  | .pop reader, q => q.head?.toList.map (fun x => (x,some reader))
  | .clear, q => q.map (fun x => (x,none))
  | _, _ => []

theorem leaving_append (m : Move α β) (q : List α) :
    (m.leaving q).map Prod.fst ++ m.apply q = q ++ m.entering := by
  cases m with
  | keep => simp [leaving,apply,entering]
  | push x => simp [leaving,apply,entering]
  | pop reader =>
    cases q with
    | nil => simp [leaving,apply,entering]
    | cons x q => simp [leaving,apply,entering]
  | clear => simp [leaving,apply,entering,Function.comp_def]

end Move

/-- What readers took, in order. -/
def taken (gone : List (α × Option β)) : List (α × β) := gone.filterMap (fun f => f.2.map (fun reader => (f.1,reader)))

theorem taken_append (gone more : List (α × Option β)) : taken (gone ++ more) = taken gone ++ taken more :=
  List.filterMap_append

theorem Move.taken_leaving {m : Move α β} (kept : m ≠ .clear) {q : List α} :
    (taken (m.leaving q)).map Prod.fst = (m.leaving q).map Prod.fst := by
  cases m with
  | keep => rfl
  | push x => rfl
  | pop reader => cases q <;> rfl
  | clear => exact absurd rfl kept

/-- A channel of a system: what is in it, and how each step moves it. -/
structure Channel (step : State → Event → State) (α β : Type*) where
  queue : State → List α
  move : State → Event → Move α β
  follows : ∀ s e, queue (step s e) = (move s e).apply (queue s)

namespace Channel
variable {step : State → Event → State} (c : Channel step α β)

/-- What leaves the channel along a run. -/
def gone (s : State) (es : List Event) : List (α × Option β) :=
  outputs step (fun s e => (c.move s e).leaving (c.queue s)) s es

/-- What enters the channel along a run. -/
def entered (s : State) (es : List Event) : List α := outputs step (fun s e => (c.move s e).entering) s es

/-- Nothing is lost, made up, doubled or overtaken. -/
theorem gone_append (s : State) (es : List Event) :
    (c.gone s es).map Prod.fst ++ c.queue (run step s es) = c.queue s ++ c.entered s es := by
  induction es generalizing s with
  | nil => simp [gone,entered,outputs]
  | cons e es ih =>
    have first := (c.move s e).leaving_append (c.queue s)
    have later := ih (step s e)
    rw [c.follows] at later
    simp only [gone,entered,outputs,List.map_append,run_cons] at later ⊢
    rw [List.append_assoc,later,← List.append_assoc,first,List.append_assoc]

/-- What a system tells of its reads is what readers took, if each step tells it so. -/
theorem outputs_eq_taken {Output : Type*} {out : State → Event → List Output} {read : α × β → Output}
    (tells : ∀ s e, out s e = (taken ((c.move s e).leaving (c.queue s))).map read) (s : State) (es : List Event) :
    outputs step out s es = (taken (c.gone s es)).map read := by
  induction es generalizing s with
  | nil => rfl
  | cons e es ih =>
    have later := ih (step s e)
    simp only [gone,outputs] at later ⊢
    rw [tells,later,taken_append,List.map_append]

/-- Where no step empties the channel, readers took everything that left it. -/
theorem taken_gone {P : State → Event → Prop} (never : ∀ s e, P s e → c.move s e ≠ .clear) {s : State} {es : List Event}
    (along : Along step P s es) : (taken (c.gone s es)).map Prod.fst = (c.gone s es).map Prod.fst := by
  induction es generalizing s with
  | nil => rfl
  | cons e es ih =>
    have later := ih along.2
    simp only [gone,outputs] at later ⊢
    rw [taken_append,List.map_append,List.map_append,later,Move.taken_leaving (never s e along.1)]

end Channel
end Rom.Channels
