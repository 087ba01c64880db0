import Rom.Runs
import Mathlib.Order.Lattice
import Mathlib.Logic.Relation
import Mathlib.Logic.Function.Basic

/-!
Flows of values that are joined. Places hold values of a join semilattice. Something may
be added at a place; a place may pour what it holds, all or in part, as messages to each
of the places next to it; a message may arrive at its place, more than once and in any
order. Places may lie in circles. On the way to a place that does not pour nothing is
lost and nothing is made up: when it has what is held and on its way before it, it
holds exactly the join of what was held at first and added at the places that lead to
it (`settled_le_iff`).
-/
namespace Rom.Flows
open Rom.Runs
variable {P L : Type*}

/-- What places hold, the messages that were sent, each with its place, and the numbers
    of those that have arrived. -/
@[ext]
structure Spread (P L : Type*) where
  held : P → L
  sent : List (P × L)
  arrived : List Nat

inductive Event (P L : Type*) where
  | add (p : P) (x : L)
  /-- What the place sends, and what it goes on to hold. -/
  | pour (p : P) (xs : List L) (rest : L)
  | arrive (k : Nat)

/-- The messages that a place sends to the places next to it. -/
def messages (next : P → List P) (p : P) (xs : List L) : List (P × L) := xs.flatMap (fun x => (next p).map (fun q => (q,x)))

theorem mem_messages {next : P → List P} {p : P} {xs : List L} {m : P × L} :
    m ∈ messages next p xs ↔ m.1 ∈ next p ∧ m.2 ∈ xs := by
  obtain ⟨q,x⟩ := m
  simp [messages,and_comm]

section
variable [SemilatticeSup L] [DecidableEq P] (next : P → List P)

def step (s : Spread P L) : Event P L → Spread P L
  | .add p x => { s with held := Function.update s.held p (s.held p ⊔ x) }
  | .pour p xs rest => { s with held := Function.update s.held p rest, sent := s.sent ++ messages next p xs }
  | .arrive k =>
    match s.sent[k]? with
    | none => s
    | some m => { s with held := Function.update s.held m.1 (s.held m.1 ⊔ m.2), arrived := k :: s.arrived }

end

/-- The place leads to another. -/
def Leads (next : P → List P) : P → P → Prop := Relation.ReflTransGen (fun p q => q ∈ next p)

/-- Pouring neither loses nor makes up anything, and a place does not pour. -/
def Fair [LE L] (r : P) (s : Spread P L) : Event P L → Prop
  | .pour p xs rest => p ≠ r ∧ ∀ b, s.held p ≤ b ↔ rest ≤ b ∧ ∀ x ∈ xs, x ≤ b
  | _ => True

section
variable [SemilatticeSup L] {next : P → List P} {r : P} {b : L} {s : Spread P L}

/-- What is held or on its way before a place, or held there, is below a bound. -/
structure Below (next : P → List P) (r : P) (b : L) (s : Spread P L) : Prop where
  held : ∀ p, Leads next p r → s.held p ≤ b
  onWay : ∀ k m, s.sent[k]? = some m → k ∉ s.arrived → Leads next m.1 r → m.2 ≤ b

/-- What has arrived is still somewhere before the place or there. -/
structure Kept (next : P → List P) (r : P) (s : Spread P L) : Prop where
  numbered : ∀ k ∈ s.arrived, k < s.sent.length
  within : ∀ b, Below next r b s → ∀ m ∈ s.sent, Leads next m.1 r → m.2 ≤ b

/-- What is added before a place is below a bound. -/
def AddsBelow (next : P → List P) (r : P) (b : L) (e : Event P L) : Prop := ∀ p x, e = .add p x → Leads next p r → x ≤ b

/-- A message is on its way or has arrived, and what has arrived is kept. -/
theorem Kept.sent_le (kept : Kept next r s) (below : Below next r b s) {k : Nat} {m : P × L} (found : s.sent[k]? = some m)
    (leads : Leads next m.1 r) : m.2 ≤ b :=
  kept.within b below m (List.mem_of_getElem? found) leads

variable [DecidableEq P]

theorem below_add (p : P) (x : L) :
    Below next r b (step next s (.add p x)) ↔ Below next r b s ∧ (Leads next p r → x ≤ b) := by
  constructor
  · intro below
    have here := below.held p
    simp only [step,Function.update_self] at here
    refine ⟨⟨?_,below.onWay⟩,fun leads => (le_sup_right).trans (here leads)⟩
    intro q leads
    by_cases same : q = p
    · rw [same] at leads ⊢
      exact le_sup_left.trans (here leads)
    · have there := below.held q leads
      simpa only [step,Function.update_of_ne same] using there
  · rintro ⟨below,added⟩
    refine ⟨?_,below.onWay⟩
    intro q leads
    by_cases same : q = p
    · subst same
      simp only [step,Function.update_self]
      exact sup_le (below.held q leads) (added leads)
    · simp only [step,Function.update_of_ne same]
      exact below.held q leads

theorem below_pour (kept : Kept next r s) {p : P} {xs : List L} {rest : L} (fair : Fair r s (.pour p xs rest)) :
    Below next r b (step next s (.pour p xs rest)) ↔ Below next r b s := by
  obtain ⟨notSink,split⟩ := fair
  constructor
  · intro below
    have older : ∀ (k : Nat) m, s.sent[k]? = some m → (s.sent ++ messages next p xs)[k]? = some m := by
      intro k m found
      rw [List.getElem?_append_left (List.getElem?_eq_some_iff.mp found).1,found]
    refine ⟨?_,fun k m found => below.onWay k m (older k m found)⟩
    intro q leads
    by_cases same : q = p
    · subst same
      -- A place before the sink has a place next to it before the sink, to which all goes.
      obtain atSink | ⟨next',first,onwards⟩ := leads.cases_head
      · exact absurd atSink notSink
      have left := below.held q leads
      simp only [step,Function.update_self] at left
      refine (split b).mpr ⟨left,fun x member => ?_⟩
      obtain ⟨j,found⟩ := List.mem_iff_getElem?.mp (mem_messages.mpr ⟨first,member⟩ : (next',x) ∈ messages next q xs)
      have number : (s.sent ++ messages next q xs)[s.sent.length + j]? = some (next',x) := by
        rw [List.getElem?_append_right (Nat.le_add_right _ _),Nat.add_sub_cancel_left,found]
      refine below.onWay _ _ number (fun early => ?_) onwards
      exact absurd (kept.numbered _ early) (by omega)
    · have there := below.held q leads
      simpa only [step,Function.update_of_ne same] using there
  · intro below
    refine ⟨?_,?_⟩
    · intro q leads
      by_cases same : q = p
      · subst same
        simp only [step,Function.update_self]
        exact ((split b).mp (below.held q leads)).1
      · simp only [step,Function.update_of_ne same]
        exact below.held q leads
    · intro k m found away leads
      rcases List.mem_append.mp (List.mem_of_getElem? found) with old | new
      · exact kept.within b below m old leads
      · obtain ⟨first,member⟩ := mem_messages.mp new
        exact ((split b).mp (below.held p (.head first leads))).2 m.2 member

theorem below_arrive (kept : Kept next r s) (k : Nat) :
    Below next r b (step next s (.arrive k)) ↔ Below next r b s := by
  rw [step]
  cases found : s.sent[k]? with
  | none => exact Iff.rfl
  | some m =>
    constructor
    · intro below
      have here := below.held m.1
      simp only [Function.update_self] at here
      refine ⟨?_,?_⟩
      · intro q leads
        by_cases same : q = m.1
        · rw [same] at leads ⊢
          exact le_sup_left.trans (here leads)
        · have there := below.held q leads
          simpa only [Function.update_of_ne same] using there
      · intro j m' found' away leads
        by_cases same : j = k
        · subst same
          obtain rfl : m = m' := Option.some.inj (found.symm.trans found')
          exact le_sup_right.trans (here leads)
        · refine below.onWay j m' found' (fun arrived => ?_) leads
          rcases List.mem_cons.mp arrived with now | before
          · exact same now
          · exact away before
    · intro below
      refine ⟨?_,fun j m' found' away => below.onWay j m' found' (fun before => away (List.mem_cons_of_mem _ before))⟩
      intro q leads
      by_cases same : q = m.1
      · subst same
        simp only [Function.update_self]
        exact sup_le (below.held _ leads) (kept.sent_le below found leads)
      · simp only [Function.update_of_ne same]
        exact below.held q leads

/-- A step adds to what is before a place exactly what is added there. -/
theorem below_step (kept : Kept next r s) {e : Event P L} (fair : Fair r s e) :
    Below next r b (step next s e) ↔ Below next r b s ∧ AddsBelow next r b e := by
  cases e with
  | add p x =>
    rw [below_add]
    refine and_congr_right fun _ => ⟨?_,fun all => all p x rfl⟩
    rintro added _ _ ⟨rfl,rfl⟩
    exact added
  | pour p xs rest =>
    rw [below_pour kept fair]
    exact (and_iff_left fun _ _ same => by cases same).symm
  | arrive k =>
    rw [below_arrive kept]
    exact (and_iff_left fun _ _ same => by cases same).symm

theorem kept_step (kept : Kept next r s) {e : Event P L} (fair : Fair r s e) : Kept next r (step next s e) := by
  have before : ∀ b, Below next r b (step next s e) → Below next r b s := fun b below => ((below_step kept fair).mp below).1
  cases e with
  | add p x => exact ⟨kept.numbered,fun b below => kept.within b (before b below)⟩
  | pour p xs rest =>
    refine ⟨?_,?_⟩
    · intro k member
      exact (kept.numbered k member).trans_le (by simp [step])
    · intro b below m member leads
      rcases List.mem_append.mp member with old | new
      · exact kept.within b (before b below) m old leads
      · obtain ⟨first,listed⟩ := mem_messages.mp new
        exact ((fair.2 b).mp ((before b below).held p (.head first leads))).2 m.2 listed
  | arrive k =>
    rw [step] at before ⊢
    cases found : s.sent[k]? with
    | none =>
      rw [found] at before
      exact kept
    | some m =>
      rw [found] at before
      refine ⟨?_,fun b below => kept.within b (before b below)⟩
      intro j member
      rcases List.mem_cons.mp member with now | earlier
      · rw [now]
        exact (List.getElem?_eq_some_iff.mp found).1
      · exact kept.numbered j earlier

theorem below_run (kept : Kept next r s) {es : List (Event P L)} (fair : Along (step next) (Fair r) s es) :
    Below next r b (run (step next) s es) ↔ Below next r b s ∧ ∀ e ∈ es, AddsBelow next r b e := by
  induction es generalizing s with
  | nil => simp
  | cons e es ih =>
    rw [run_cons,ih (kept_step kept fair.1) fair.2,below_step kept fair.1,List.forall_mem_cons,and_assoc]

/-- When a place has what is held and on its way before it, it holds exactly what was
    held and added before it. -/
theorem settled_le_iff (first : s.sent = [] ∧ s.arrived = []) {es : List (Event P L)}
    (fair : Along (step next) (Fair r) s es)
    (settled : Below next r ((run (step next) s es).held r) (run (step next) s es)) :
    (run (step next) s es).held r ≤ b ↔ (∀ p, Leads next p r → s.held p ≤ b) ∧ ∀ e ∈ es, AddsBelow next r b e := by
  have kept : Kept next r s := by
    refine ⟨?_,?_⟩
    · rw [first.2]
      intro k member
      cases member
    · rw [first.1]
      intro b _ m member
      cases member
  have atEnd : Below next r b (run (step next) s es) ↔ (run (step next) s es).held r ≤ b := by
    refine ⟨fun below => below.held r .refl,fun le => ⟨fun p leads => (settled.held p leads).trans le,?_⟩⟩
    intro k m found away leads
    exact (settled.onWay k m found away leads).trans le
  have atStart : Below next r b s ↔ ∀ p, Leads next p r → s.held p ≤ b := by
    refine ⟨Below.held,fun held => ⟨held,?_⟩⟩
    intro k m found
    rw [first.1] at found
    cases found
  rw [← atEnd,below_run kept fair,atStart]

end
end Rom.Flows
