import Rom.Runs
import Mathlib.Logic.Function.Basic
import Mathlib.Order.Basic
import Mathlib.Data.Fintype.Defs

/-!
Replicas of one object that exchange deltas. A replica takes local operations,
hands out a delta when it has something new, and merges deltas. The network
keeps every delta that was handed out and may deliver each of them to each
replica at any time and any number of times; a delivery that never happens is a
loss. `Settled` says that every delta has reached every replica but its author.
An object that keeps more than another has its runs (`map_step`).
-/
namespace Rom.Replication
open Rom.Runs

/-- An implementation of a replicated object: states `R`, operations `Op`,
    deltas `M`. -/
structure Object (R Op M : Type*) where
  apply : R → Op → R
  /-- The delta to hand out, if there is one, and the state after it. -/
  delta : R → Option M × R
  merge : R → M → R

/-- The replicas, the deltas handed out with their authors, and for each replica
    the deltas that were delivered to it. -/
structure Network (ι R M : Type*) where
  node : ι → R
  sent : List (ι × M)
  merged : ι → List Nat

inductive Event (ι Op : Type*) where
  | act (i : ι) (op : Op)
  | emit (i : ι)
  /-- The delta handed out as the `k`-th is delivered to `i`. -/
  | deliver (i : ι) (k : Nat)
  deriving DecidableEq, Repr

variable {ι R Op M : Type*} [DecidableEq ι] (obj : Object R Op M)

def start (init : ι → R) : Network ι R M := ⟨init,[],fun _ => []⟩

def step (s : Network ι R M) : Event ι Op → Network ι R M
  | .act i op => { s with node := Function.update s.node i (obj.apply (s.node i) op) }
  | .emit i =>
    { s with
      node := Function.update s.node i (obj.delta (s.node i)).2
      sent := s.sent ++ ((obj.delta (s.node i)).1.map (fun d => (i,d))).toList }
  | .deliver i k =>
    match s.sent[k]? with
    | some d =>
      { s with
        node := Function.update s.node i (obj.merge (s.node i) d.2)
        merged := Function.update s.merged i (k :: s.merged i) }
    | none => s

/-- The deltas that a replica has handed out or merged. -/
def Absorbed (s : Network ι R M) (i : ι) (k : Nat) : Prop :=
  (∃ d, s.sent[k]? = some (i,d)) ∨ k ∈ s.merged i

/-- Every delta has been merged at every replica other than its author. -/
def Settled (s : Network ι R M) : Prop :=
  ∀ i k, (inside : k < s.sent.length) → i ≠ s.sent[k].1 → k ∈ s.merged i

instance [Fintype ι] : DecidablePred (Settled : Network ι R M → Prop) := fun s =>
  inferInstanceAs (Decidable (∀ i k, (inside : k < s.sent.length) → i ≠ s.sent[k].1 → k ∈ s.merged i))

variable {obj} {s : Network ι R M}

theorem sent_grows (e : Event ι Op) : s.sent <+: (step obj s e).sent := by
  cases e with
  | act i op => exact List.prefix_refl _
  | emit i => exact List.prefix_append _ _
  | deliver i k =>
    simp only [step]
    split <;> exact List.prefix_refl _

theorem sent_kept {k : Nat} {d : ι × M} (found : s.sent[k]? = some d) (e : Event ι Op) :
    (step obj s e).sent[k]? = some d := by
  obtain ⟨inside,rfl⟩ := List.getElem?_eq_some_iff.mp found
  have grows : s.sent <+: (step obj s e).sent := sent_grows e
  obtain ⟨more,same⟩ := grows
  rw [← same,List.getElem?_append_left inside,List.getElem?_eq_getElem inside]

/-- A delta is merged where it was merged before or is delivered now. -/
theorem mem_merged_step {e : Event ι Op} {i : ι} {k : Nat} (member : k ∈ (step obj s e).merged i) :
    k ∈ s.merged i ∨ e = .deliver i k ∧ ∃ d, s.sent[k]? = some d := by
  cases e with
  | act j op => exact .inl member
  | emit j => exact .inl member
  | deliver j n =>
    cases found : s.sent[n]? with
    | none => exact .inl (by simpa [step,found] using member)
    | some d =>
      by_cases same : i = j
      · subst same
        simp only [step,found,Function.update_self,List.mem_cons] at member
        rcases member with rfl | old
        · exact .inr ⟨rfl,d,found⟩
        · exact .inl old
      · exact .inl (by simpa [step,found,same] using member)

/-- The deltas of a step are the old ones, and behind them the one it hands out. -/
theorem sent_cases {e : Event ι Op} {k : Nat} {d : ι × M} (found : (step obj s e).sent[k]? = some d) :
    s.sent[k]? = some d ∨ k = s.sent.length ∧ e = .emit d.1 ∧ (obj.delta (s.node d.1)).1 = some d.2 := by
  by_cases old : k < s.sent.length
  · have before := List.getElem?_eq_getElem old
    rw [sent_kept before] at found
    exact .inl (before.trans found)
  · cases e with
    | act i op => exact .inl found
    | emit i =>
      have new : ((obj.delta (s.node i)).1.map (fun d => (i,d))).toList[k - s.sent.length]? = some d := by
        rw [← found]
        exact (List.getElem?_append_right (Nat.not_lt.mp old)).symm
      cases emitted : (obj.delta (s.node i)).1 with
      | none => simp [emitted] at new
      | some m =>
        rw [emitted,Option.map_some,Option.toList_some,List.getElem?_singleton] at new
        split at new
        · next here =>
          cases new
          exact .inr ⟨by omega,rfl,emitted⟩
        · cases new
    | deliver i n =>
      simp only [step] at found
      split at found
      · exact .inl found
      · exact .inl found

theorem mem_sent_step {e : Event ι Op} {d : ι × M} (member : d ∈ (step obj s e).sent) :
    d ∈ s.sent ∨ e = .emit d.1 ∧ (obj.delta (s.node d.1)).1 = some d.2 := by
  obtain ⟨k,found⟩ := List.mem_iff_getElem?.mp member
  rcases sent_cases found with old | ⟨_,new⟩
  · exact .inl (List.mem_of_getElem? old)
  · exact .inr new

/-- A replica after a step is as it was, or it took the step's operation, delta
    or merge. -/
theorem node_cases (e : Event ι Op) (i : ι) :
    (step obj s e).node i = s.node i ∨
      (∃ op, e = .act i op ∧ (step obj s e).node i = obj.apply (s.node i) op) ∨
      (e = .emit i ∧ (step obj s e).node i = (obj.delta (s.node i)).2) ∨
      ∃ k d, e = .deliver i k ∧ s.sent[k]? = some d ∧ (step obj s e).node i = obj.merge (s.node i) d.2 := by
  cases e with
  | act j op =>
    by_cases same : i = j
    · subst same
      exact .inr (.inl ⟨op,rfl,by simp [step]⟩)
    · exact .inl (by simp [step,same])
  | emit j =>
    by_cases same : i = j
    · subst same
      exact .inr (.inr (.inl ⟨rfl,by simp [step]⟩))
    · exact .inl (by simp [step,same])
  | deliver j k =>
    cases found : s.sent[k]? with
    | none => exact .inl (by simp [step,found])
    | some d =>
      by_cases same : i = j
      · subst same
        exact .inr (.inr (.inr ⟨k,d,rfl,found,by simp [step,found]⟩))
      · exact .inl (by simp [step,found,same])

/-- Only deltas that were handed out are merged. -/
def MergedSent (s : Network ι R M) : Prop := ∀ i, ∀ k ∈ s.merged i, k < s.sent.length

theorem mergedSent_step (e : Event ι Op) (known : MergedSent s) : MergedSent (step obj s e) := by
  intro i k member
  apply Nat.lt_of_lt_of_le _ (sent_grows e).length_le
  rcases mem_merged_step member with old | ⟨_,d,found⟩
  · exact known i k old
  · exact (List.getElem?_eq_some_iff.mp found).1

theorem merged_kept {i : ι} {k : Nat} (member : k ∈ s.merged i) (e : Event ι Op) : k ∈ (step obj s e).merged i := by
  cases e with
  | act j op => exact member
  | emit j => exact member
  | deliver j n =>
    cases found : s.sent[n]? with
    | none => simpa [step,found] using member
    | some d =>
      by_cases same : i = j
      · subst same
        simp [step,found,member]
      · simpa [step,found,same] using member

/-- A step makes its author absorb the delta it hands out, or a replica the delta
    that is delivered to it. -/
theorem absorbed_step (e : Event ι Op) (i : ι) (k : Nat) :
    Absorbed (step obj s e) i k ↔ Absorbed s i k ∨
      (e = .emit i ∧ k = s.sent.length ∧ ∃ d, (obj.delta (s.node i)).1 = some d) ∨
      (e = .deliver i k ∧ ∃ d, s.sent[k]? = some d) := by
  constructor
  · rintro (⟨d,found⟩ | member)
    · rcases sent_cases found with old | ⟨new,rfl,emitted⟩
      · exact .inl (.inl ⟨d,old⟩)
      · exact .inr (.inl ⟨rfl,new,d,emitted⟩)
    · rcases mem_merged_step member with old | delivered
      · exact .inl (.inr old)
      · exact .inr (.inr delivered)
  · rintro ((⟨d,found⟩ | member) | ⟨rfl,rfl,d,emitted⟩ | ⟨rfl,d,found⟩)
    · exact .inl ⟨d,sent_kept found e⟩
    · exact .inr (merged_kept member e)
    · refine .inl ⟨d,?_⟩
      simp [step,emitted]
    · exact .inr (by simp [step,found])

/-! ### What a replica has received

A replica has received a delta when it has handed it out or merged it. A step
adds the delta it hands out to its author's and the delta it delivers to the
receiver's (`received_step`). -/

/-- Some delta that the replica has handed out or merged has the property. -/
def Received (s : Network ι R M) (i : ι) (C : M → Prop) : Prop :=
  ∃ k, ∃ inside : k < s.sent.length, Absorbed s i k ∧ C s.sent[k].2

instance (s : Network ι R M) (i : ι) (k : Nat) : Decidable (Absorbed s i k) :=
  decidable_of_iff (s.sent[k]?.map Prod.fst = some i ∨ k ∈ s.merged i) (by
    rw [Absorbed,Option.map_eq_some_iff]
    simp only [Prod.exists,exists_and_right,exists_eq_right])

instance (s : Network ι R M) (i : ι) (C : M → Prop) [DecidablePred C] : Decidable (Received s i C) :=
  inferInstanceAs (Decidable (∃ k, ∃ inside : k < s.sent.length, Absorbed s i k ∧ C s.sent[k].2))

omit [DecidableEq ι] in
theorem received_iff {i : ι} {C : M → Prop} :
    Received s i C ↔ ∃ k d, s.sent[k]? = some d ∧ Absorbed s i k ∧ C d.2 := by
  constructor
  · rintro ⟨k,inside,absorbed,holds⟩
    exact ⟨k,s.sent[k],List.getElem?_eq_getElem inside,absorbed,holds⟩
  · rintro ⟨k,d,found,absorbed,holds⟩
    obtain ⟨inside,rfl⟩ := List.getElem?_eq_some_iff.mp found
    exact ⟨k,inside,absorbed,holds⟩

theorem received_emit (known : MergedSent s) (i j : ι) (C : M → Prop) :
    Received (step obj s (.emit j)) i C ↔
      Received s i C ∨ i = j ∧ ∃ d, (obj.delta (s.node j)).1 = some d ∧ C d := by
  have tail : ∀ k, ¬ k < s.sent.length → (step obj s (.emit j)).sent[k]? =
      ((obj.delta (s.node j)).1.map (fun d => (j,d))).toList[k - s.sent.length]? :=
    fun k after => List.getElem?_append_right (by omega)
  have front : ∀ k, k < s.sent.length → (step obj s (.emit j)).sent[k]? = s.sent[k]? :=
    fun k before => List.getElem?_append_left before
  rw [received_iff,received_iff]
  constructor
  · rintro ⟨k,d,found,absorbed,holds⟩
    by_cases before : k < s.sent.length
    · rw [front k before] at found
      rcases absorbed with ⟨m,own⟩ | merged
      · rw [front k before] at own
        exact .inl ⟨k,d,found,.inl ⟨m,own⟩,holds⟩
      · exact .inl ⟨k,d,found,.inr merged,holds⟩
    · rcases absorbed with ⟨m,own⟩ | merged
      · have new := List.mem_of_getElem? ((tail k before).symm.trans found)
        rw [Option.mem_toList,Option.map_eq_some_iff] at new
        obtain ⟨m',emitted,rfl⟩ := new
        rw [found] at own
        cases own
        exact .inr ⟨rfl,m,emitted,holds⟩
      · exact absurd (known i k merged) before
  · rintro (⟨k,d,found,absorbed,holds⟩ | ⟨rfl,d,emitted,holds⟩)
    · have before : k < s.sent.length := (List.getElem?_eq_some_iff.mp found).1
      refine ⟨k,d,(front k before).trans found,?_,holds⟩
      rcases absorbed with ⟨m,own⟩ | merged
      · exact .inl ⟨m,(front k before).trans own⟩
      · exact .inr merged
    · have here : (step obj s (.emit i)).sent[s.sent.length]? = some (i,d) := by
        rw [tail _ (lt_irrefl _),emitted]
        simp
      exact ⟨s.sent.length,(i,d),here,.inl ⟨d,here⟩,holds⟩

theorem received_deliver {k : Nat} {d : ι × M} (found : s.sent[k]? = some d) (i j : ι) (C : M → Prop) :
    Received (step obj s (.deliver j k)) i C ↔ Received s i C ∨ i = j ∧ C d.2 := by
  have sent : (step obj s (.deliver j k)).sent = s.sent := by simp only [step,found]
  have merged : (step obj s (.deliver j k)).merged = Function.update s.merged j (k :: s.merged j) := by
    simp only [step,found]
  rw [received_iff,received_iff]
  simp only [Absorbed,sent,merged]
  constructor
  · rintro ⟨n,d',found',own | member,holds⟩
    · exact .inl ⟨n,d',found',.inl own,holds⟩
    · by_cases same : i = j
      · subst same
        rw [Function.update_self] at member
        rcases List.mem_cons.mp member with rfl | old
        · rw [found] at found'
          cases found'
          exact .inr ⟨rfl,holds⟩
        · exact .inl ⟨n,d',found',.inr old,holds⟩
      · rw [Function.update_of_ne same] at member
        exact .inl ⟨n,d',found',.inr member,holds⟩
  · rintro (⟨n,d',found',own | member,holds⟩ | ⟨rfl,holds⟩)
    · exact ⟨n,d',found',.inl own,holds⟩
    · refine ⟨n,d',found',.inr ?_,holds⟩
      by_cases same : i = j
      · subst same
        rw [Function.update_self]
        exact List.mem_cons_of_mem k member
      · rw [Function.update_of_ne same]
        exact member
    · exact ⟨k,d,found,.inr (by rw [Function.update_self]; exact List.mem_cons_self),holds⟩

/-- What a replica has received after a step. -/
theorem received_step (known : MergedSent s) (e : Event ι Op) (i : ι) (C : M → Prop) :
    Received (step obj s e) i C ↔ Received s i C ∨
      (e = .emit i ∧ ∃ d, (obj.delta (s.node i)).1 = some d ∧ C d) ∨
      ∃ k d, e = .deliver i k ∧ s.sent[k]? = some d ∧ C d.2 := by
  cases e with
  | act j op =>
    have same : Received (step obj s (.act j op)) i C ↔ Received s i C := Iff.rfl
    rw [same]
    simp
  | emit j =>
    rw [received_emit known]
    constructor
    · rintro (old | ⟨rfl,emitted⟩)
      · exact .inl old
      · exact .inr (.inl ⟨rfl,emitted⟩)
    · rintro (old | ⟨same,emitted⟩ | ⟨k,d,same,_⟩)
      · exact .inl old
      · cases same
        exact .inr ⟨rfl,emitted⟩
      · cases same
  | deliver j k =>
    cases found : s.sent[k]? with
    | none =>
      have same : step obj s (.deliver j k) = s := by simp only [step,found]
      rw [same]
      constructor
      · exact .inl
      · rintro (old | ⟨same,_⟩ | ⟨n,d,same,found',_⟩)
        · exact old
        · cases same
        · cases same
          rw [found] at found'
          cases found'
    | some d =>
      rw [received_deliver found]
      constructor
      · rintro (old | ⟨rfl,holds⟩)
        · exact .inl old
        · exact .inr (.inr ⟨k,d,rfl,found,holds⟩)
      · rintro (old | ⟨same,_⟩ | ⟨n,d',same,found',holds⟩)
        · exact .inl old
        · cases same
        · cases same
          rw [found] at found'
          cases found'
          exact .inr ⟨rfl,holds⟩

/-! ### What a replica holds

Some objects keep what their next delta will say as pending. Where handing out
the delta moves a pending fact into it, a replica holds the fact before exactly
when it holds it after. -/

/-- A fact is pending at the replica, or a delta it has received says it. -/
def Held (s : Network ι R M) (i : ι) (pending : R → Prop) (stated : M → Prop) : Prop :=
  pending (s.node i) ∨ Received s i stated

instance (s : Network ι R M) (i : ι) (pending : R → Prop) (stated : M → Prop) [DecidablePred pending]
    [DecidablePred stated] : Decidable (Held s i pending stated) :=
  inferInstanceAs (Decidable (_ ∨ _))

section
variable {pending : R → Prop} {stated : M → Prop}

theorem held_act {j : ι} {op : Op} {new : Prop} (i : ι)
    (changed : pending (obj.apply (s.node j) op) ↔ pending (s.node j) ∨ new) :
    Held (step obj s (.act j op)) i pending stated ↔ Held s i pending stated ∨ i = j ∧ new := by
  have received : Received (step obj s (.act j op)) i stated ↔ Received s i stated := Iff.rfl
  rw [Held,Held,received]
  by_cases same : i = j
  · subst same
    simp only [step,Function.update_self,changed]
    tauto
  · simp [step,same]

theorem held_act_kept {j : ι} {op : Op} (i : ι) (kept : pending (obj.apply (s.node j) op) ↔ pending (s.node j)) :
    Held (step obj s (.act j op)) i pending stated ↔ Held s i pending stated := by
  have unchanged : pending (obj.apply (s.node j) op) ↔ pending (s.node j) ∨ False := by rw [kept,or_false]
  rw [held_act i unchanged]
  simp

theorem held_emit (known : MergedSent s) {j : ι} (i : ι)
    (handed : (pending (obj.delta (s.node j)).2 ∨ ∃ d, (obj.delta (s.node j)).1 = some d ∧ stated d) ↔
      pending (s.node j)) :
    Held (step obj s (.emit j)) i pending stated ↔ Held s i pending stated := by
  rw [Held,Held,received_emit known]
  by_cases same : i = j
  · subst same
    simp only [step,Function.update_self,true_and]
    rw [← handed,or_right_comm,or_assoc]
  · simp [step,same]

omit [DecidableEq ι] in
/-- The author of a delta holds what it says. -/
theorem held_of_sent {k : Nat} {d : ι × M} (found : s.sent[k]? = some d) (holds : stated d.2) :
    Held s d.1 pending stated :=
  .inr (received_iff.mpr ⟨k,d,found,.inl ⟨d.2,found⟩,holds⟩)

theorem held_deliver {k : Nat} {d : ι × M} (found : s.sent[k]? = some d) {j : ι} (i : ι)
    (kept : pending (obj.merge (s.node j) d.2) ↔ pending (s.node j)) :
    Held (step obj s (.deliver j k)) i pending stated ↔ Held s i pending stated ∨ i = j ∧ stated d.2 := by
  rw [Held,Held,received_deliver found]
  by_cases same : i = j
  · subst same
    simp only [step,found,Function.update_self]
    tauto
  · simp [step,found,same]

end

/-! ### Bookkeeping

Where an object keeps more than another and otherwise does the same, leaving out
the rest leads from runs of the one to runs of the other. -/

section
variable {R' M' : Type*} {obj' : Object R' Op M'}

/-- The network with its replicas and deltas mapped. -/
def Network.map (f : R → R') (g : M → M') (s : Network ι R M) : Network ι R' M' :=
  ⟨fun i => f (s.node i),s.sent.map (fun d => (d.1,g d.2)),s.merged⟩

/-- The maps respect what the objects do. -/
structure Follows (obj : Object R Op M) (obj' : Object R' Op M') (f : R → R') (g : M → M') : Prop where
  apply : ∀ r op, f (obj.apply r op) = obj'.apply (f r) op
  delta : ∀ r, obj'.delta (f r) = ((obj.delta r).1.map g,f (obj.delta r).2)
  merge : ∀ r d, f (obj.merge r d) = obj'.merge (f r) (g d)

variable {f : R → R'} {g : M → M'}

theorem map_update (node : ι → R) (i : ι) (r : R) :
    (fun j => f (Function.update node i r j)) = Function.update (fun j => f (node j)) i (f r) := by
  funext j
  by_cases same : j = i
  · subst same
    simp
  · simp [same]

theorem map_step (follows : Follows obj obj' f g) (s : Network ι R M) (e : Event ι Op) :
    (step obj s e).map f g = step obj' (s.map f g) e := by
  cases e with
  | act i op =>
    simp only [step,Network.map,map_update,follows.apply]
  | emit i =>
    simp only [step,Network.map,map_update,follows.delta,List.map_append]
    cases (obj.delta (s.node i)).1 with
    | none => rfl
    | some d => rfl
  | deliver i k =>
    have found : (s.map f g).sent[k]? = s.sent[k]?.map (fun d => (d.1,g d.2)) := List.getElem?_map ..
    simp only [step,found]
    cases s.sent[k]? with
    | none => rfl
    | some d => simp only [Option.map_some,Network.map,map_update,follows.merge]

omit [DecidableEq ι] in
theorem absorbed_map (s : Network ι R M) (i : ι) (k : Nat) : Absorbed (s.map f g) i k ↔ Absorbed s i k := by
  have found : (s.map f g).sent[k]? = s.sent[k]?.map (fun d => (d.1,g d.2)) := List.getElem?_map ..
  rw [Absorbed,Absorbed,found]
  refine or_congr ?_ Iff.rfl
  cases s.sent[k]? with
  | none => simp
  | some d => simp [Prod.ext_iff]

omit [DecidableEq ι] in
theorem received_map (s : Network ι R M) (i : ι) (C : M' → Prop) :
    Received (s.map f g) i C ↔ Received s i (fun d => C (g d)) := by
  have found : ∀ k : Nat, (s.map f g).sent[k]? = s.sent[k]?.map (fun d => (d.1,g d.2)) := fun k => List.getElem?_map ..
  simp only [received_iff,absorbed_map,found,Option.map_eq_some_iff]
  constructor
  · rintro ⟨k,_,⟨d,at_k,rfl⟩,absorbed,holds⟩
    exact ⟨k,d,at_k,absorbed,holds⟩
  · rintro ⟨k,d,at_k,absorbed,holds⟩
    exact ⟨k,_,⟨d,at_k,rfl⟩,absorbed,holds⟩

omit [DecidableEq ι] in
theorem held_map (s : Network ι R M) (i : ι) (pending : R' → Prop) (stated : M' → Prop) :
    Held (s.map f g) i pending stated ↔ Held s i (fun r => pending (f r)) (fun d => stated (g d)) :=
  or_congr Iff.rfl (received_map s i stated)

end

/-! ### Replicas that only grow

Where every operation, delta and merge moves a replica up in an order, and a
merge moves it above the delta, a replica stays above every delta it has handed
out or merged. -/

/-- How a replica and a delta are measured, and what keeps the measures growing. -/
structure Growing (obj : Object R Op M) (allowed : Network ι R M → Event ι Op → Prop) {L : Type*} [Preorder L]
    (rank : R → L) (weight : M → L) : Prop where
  apply_le : ∀ s i op, allowed s (.act i op) → rank (s.node i) ≤ rank (obj.apply (s.node i) op)
  delta_le : ∀ r, rank r ≤ rank (obj.delta r).2
  weight_le : ∀ r d, (obj.delta r).1 = some d → weight d ≤ rank r
  merge_le : ∀ r d, rank r ≤ rank (obj.merge r d)
  weight_merge_le : ∀ r d, weight d ≤ rank (obj.merge r d)

section
variable {allowed : Network ι R M → Event ι Op → Prop} {L : Type*} [Preorder L] {rank : R → L} {weight : M → L}

theorem Growing.node_le (grows : Growing obj allowed rank weight) {e : Event ι Op} (ok : allowed s e) (i : ι) :
    rank (s.node i) ≤ rank ((step obj s e).node i) := by
  rcases node_cases e i with same | ⟨op,rfl,node⟩ | ⟨rfl,node⟩ | ⟨k,d,rfl,_,node⟩
  · rw [same]
  · rw [node]
    exact grows.apply_le s i op ok
  · rw [node]
    exact grows.delta_le (s.node i)
  · rw [node]
    exact grows.merge_le (s.node i) d.2

/-- Every replica is above every delta it has handed out or merged. -/
def Above (rank : R → L) (weight : M → L) (s : Network ι R M) : Prop :=
  ∀ i k d, s.sent[k]? = some d → Absorbed s i k → weight d.2 ≤ rank (s.node i)

theorem Growing.above_step (grows : Growing obj allowed rank weight) {e : Event ι Op} (ok : allowed s e)
    (known : MergedSent s) (above : Above rank weight s) :
    Above rank weight (step obj s e) := by
  intro i k d found absorbed
  have received : Received (step obj s e) i (fun m => m = d.2) := received_iff.mpr ⟨k,d,found,absorbed,rfl⟩
  rcases (received_step known e i _).mp received with old | ⟨rfl,m,emitted,same⟩ | ⟨n,m,rfl,at_n,same⟩
  · obtain ⟨n,m,found,absorbed,same⟩ := received_iff.mp old
    exact same ▸ (above i n m found absorbed).trans (grows.node_le ok i)
  · exact same ▸ (grows.weight_le _ m emitted).trans (grows.node_le ok i)
  · rw [← same]
    simpa [step,at_n] using grows.weight_merge_le (s.node i) m.2

end
end Rom.Replication
