import Rom.Registry

/-!
A replica of a value of any type behind the interface `Crdt`: the local changes
that the types offer, and what a replica does with them and with the payloads of
others. A payload that a replica hands out is a delta that is not empty, or a
snapshot.
-/
namespace Rom

/-- A local change of a replicated value. -/
inductive Change where
  | set (value : Bytes) (timestampUs : UInt32)
  | increment (amount : UInt64)
  | decrement (amount : UInt64)
  | add (elem : Bytes)
  | remove (elem : Bytes)
  deriving DecidableEq, Repr

/-- What is done with a replica. -/
inductive Action where
  | change (change : Change)
  | delta
  | snapshot
  | merge (data : Bytes)
  deriving DecidableEq, Repr

/-- The set after merging payloads in order. -/
def OrSet.mergeAll (s : OrSet) (ds : List Bytes) : OrSet := ds.foldl (fun s d => (s.merge d).1) s

theorem OrSet.mergeAll_append (s : OrSet) (ds es : List Bytes) : s.mergeAll (ds ++ es) = (s.mergeAll ds).mergeAll es :=
  List.foldl_append

namespace Crdt

/-- The type of a value. -/
def typeOf : Crdt → CrdtType
  | lwwRegister _ => .lwwRegister
  | gCounter _ => .gCounter
  | pnCounter _ => .pnCounter
  | orSet _ => .orSet

/-- The value after a local change; a type without such a change is left alone. -/
def change : Crdt → Change → Crdt
  | lwwRegister r, .set value timestampUs => .lwwRegister (r.set value timestampUs)
  | gCounter c, .increment amount => .gCounter (c.increment amount)
  | pnCounter c, .increment amount => .pnCounter (c.increment amount)
  | pnCounter c, .decrement amount => .pnCounter (c.decrement amount)
  | orSet s, .add elem => .orSet (s.add elem)
  | orSet s, .remove elem => .orSet (s.remove elem).1
  | c, _ => c

def act (c : Crdt) : Action → Crdt
  | .change change => c.change change
  | .delta => c.delta.2
  | .snapshot => c
  | .merge data => (c.merge data).1

/-- What the replica hands out on an action. -/
def handsOut (c : Crdt) : Action → List Bytes
  | .delta => if c.delta.1.isEmpty then [] else [c.delta.1]
  | .snapshot => [c.snapshot]
  | _ => []

/-- A delta that is handed out is not empty. -/
theorem mem_handsOut {c : Crdt} {action : Action} {d : Bytes} (member : d ∈ c.handsOut action) :
    action = .delta ∧ d = c.delta.1 ∧ d ≠ [] ∨ action = .snapshot ∧ d = c.snapshot := by
  cases action with
  | change change => cases member
  | delta =>
    rw [handsOut] at member
    split at member
    · cases member
    · next nonempty =>
      cases List.mem_singleton.mp member
      exact .inl ⟨rfl,rfl,fun empty => nonempty (by rw [empty]; rfl)⟩
  | snapshot => exact .inr ⟨rfl,List.mem_singleton.mp member⟩
  | merge data => cases member

/-- The value after merging payloads in order. -/
def mergeAll (c : Crdt) (ds : List Bytes) : Crdt := ds.foldl (fun c d => (c.merge d).1) c

@[simp] theorem mergeAll_nil (c : Crdt) : mergeAll c [] = c := rfl
@[simp] theorem mergeAll_cons (c : Crdt) (d : Bytes) (ds : List Bytes) :
    mergeAll c (d :: ds) = mergeAll (c.merge d).1 ds := rfl

theorem mergeAll_append (c : Crdt) (ds es : List Bytes) : mergeAll c (ds ++ es) = mergeAll (mergeAll c ds) es :=
  List.foldl_append

theorem mergeAll_orSet (s : OrSet) (ds : List Bytes) : mergeAll (.orSet s) ds = .orSet (s.mergeAll ds) := by
  induction ds generalizing s with
  | nil => rfl
  | cons d ds ih => exact ih (s.merge d).1

@[simp] theorem typeOf_merge (c : Crdt) (data : Bytes) : (c.merge data).1.typeOf = c.typeOf := by
  cases c <;> rfl

section
variable {c : Crdt}

theorem exists_register (same : c.typeOf = .lwwRegister) : ∃ r, c = .lwwRegister r := by
  cases c with
  | lwwRegister r => exact ⟨r,rfl⟩
  | gCounter _ => cases same
  | pnCounter _ => cases same
  | orSet _ => cases same

theorem exists_gCounter (same : c.typeOf = .gCounter) : ∃ r, c = .gCounter r := by
  cases c with
  | gCounter r => exact ⟨r,rfl⟩
  | lwwRegister _ => cases same
  | pnCounter _ => cases same
  | orSet _ => cases same

theorem exists_pnCounter (same : c.typeOf = .pnCounter) : ∃ r, c = .pnCounter r := by
  cases c with
  | pnCounter r => exact ⟨r,rfl⟩
  | lwwRegister _ => cases same
  | gCounter _ => cases same
  | orSet _ => cases same

theorem exists_orSet (same : c.typeOf = .orSet) : ∃ s, c = .orSet s := by
  cases c with
  | orSet s => exact ⟨s,rfl⟩
  | lwwRegister _ => cases same
  | gCounter _ => cases same
  | pnCounter _ => cases same

end

theorem typeOf_mergeAll (c : Crdt) (ds : List Bytes) : (mergeAll c ds).typeOf = c.typeOf := by
  induction ds generalizing c with
  | nil => rfl
  | cons d ds ih => rw [mergeAll_cons,ih,typeOf_merge]

@[simp] theorem typeOf_change (c : Crdt) (change : Change) : (c.change change).typeOf = c.typeOf := by
  cases c <;> cases change <;> rfl

@[simp] theorem typeOf_delta (c : Crdt) : c.delta.2.typeOf = c.typeOf := by
  cases c <;> rfl

theorem typeOf_act (c : Crdt) (action : Action) : (c.act action).typeOf = c.typeOf := by
  cases action with
  | change change => exact typeOf_change c change
  | delta => exact typeOf_delta c
  | snapshot => rfl
  | merge data => exact typeOf_merge c data

end Crdt
end Rom
