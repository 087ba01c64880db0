import Rom.Orderly

/-!
What `has_pending_delta` and `delta` promise. A replica keeps track of whether it was
changed since its last delta, and whatever is merged in between, its flags say that
(`hasPendingDelta_run`). Three types hand out bytes exactly when they have something
pending. The counter of two halves hands out bytes every time (`contract_iff`): its
delta writes both halves, a snapshot for a half without changes.
-/
namespace Rom.Pending
open Rom.Runs
open Rom.PnCounter (Side half)

/-- The change is one of the type's, and is made: a remove of an element that is not
    there changes nothing and reports so. -/
def mutates : Crdt → Change → Bool
  | .lwwRegister _, .set _ _ => true
  | .gCounter _, .increment _ => true
  | .pnCounter _, .increment _ => true
  | .pnCounter _, .decrement _ => true
  | .orSet _, .add _ => true
  | .orSet s, .remove elem => (s.remove elem).2
  | _, _ => false

/-- A replica, and whether it was changed since its last delta. -/
structure Replica where
  crdt : Crdt
  changed : Bool := false

/-- Whether there is a change since the last delta, after an action. -/
def changedBy (s : Replica) : Action → Bool
  | .change change => s.changed || mutates s.crdt change
  | .delta => false
  | .snapshot => s.changed
  | .merge _ => s.changed

def step (s : Replica) (action : Action) : Replica := ⟨s.crdt.act action,changedBy s action⟩

/-- What the interface promises of a replica. Payloads may be merged before the
    second delta. -/
structure Contract (s : Replica) : Prop where
  pending : s.crdt.hasPendingDelta = s.changed
  sent : s.crdt.delta.1 ≠ [] ↔ s.crdt.hasPendingDelta = true
  again : ∀ payloads, (s.crdt.delta.2.mergeAll payloads).delta.1 = []

/-! ### The flags -/

theorem flag_increment (c : GCounter) (amount : UInt64) : (c.increment amount).dirty = true := by
  rw [GCounter.increment]
  split
  · rfl
  · rfl

theorem flag_remove (s : OrSet) (elem : Bytes) : (s.remove elem).1.dirty = (s.dirty || (s.remove elem).2) := by
  rw [OrSet.remove]
  cases s.entries[elem]? with
  | none => simp
  | some tags =>
    by_cases empty : tags.isEmpty = true
    · simp [empty]
    · simp [empty]

theorem flag_lww_merge (r : LwwRegister) (data : Bytes) : (r.merge data).1.dirty = r.dirty := by
  rw [LwwRegister.merge]
  split
  · rfl
  · dsimp only
    split
    · rfl
    · rfl

/-- A merge leaves the flag alone. -/
theorem hasPendingDelta_merge (c : Crdt) (data : Bytes) : (c.merge data).1.hasPendingDelta = c.hasPendingDelta := by
  cases c with
  | lwwRegister r => exact flag_lww_merge r data
  | gCounter c =>
    show (c.merge data).1.dirty = c.dirty
    rw [GCounter.merge_eq,GCounter.dirty_mergeEntries]
  | pnCounter c =>
    have side (side : Side) : (half side (c.merge data).1).dirty = (half side c).dirty := by
      rw [PnCounter.half_merge,GCounter.dirty_mergeEntries]
    exact congrArg₂ or (side .up) (side .down)
  | orSet s => exact (OrSetRuns.merge_rest s data).2.2.1

/-- A delta clears the flag. -/
theorem hasPendingDelta_delta (c : Crdt) : c.delta.2.hasPendingDelta = false := by
  cases c with
  | lwwRegister r =>
    show r.delta.2.dirty = false
    rw [LwwRegister.delta]
    cases pending : r.dirty with
    | false => exact pending
    | true => rfl
  | gCounter c =>
    show c.delta.2.dirty = false
    rw [GCounter.delta_state]
  | pnCounter c =>
    show ((PnCounter.deltaHalf c.p).2.dirty || (PnCounter.deltaHalf c.n).2.dirty) = false
    rw [GCounter.deltaHalf_state,GCounter.deltaHalf_state]
    rfl
  | orSet s =>
    show s.delta.2.dirty = false
    rw [OrSet.delta]
    cases pending : s.dirty with
    | false => exact pending
    | true => rfl

/-- A change that is made sets the flag, and no other does. -/
theorem hasPendingDelta_change (c : Crdt) (change : Change) :
    (c.change change).hasPendingDelta = (c.hasPendingDelta || mutates c change) := by
  have other : ∀ flag : Bool, flag = (flag || false) := fun flag => (Bool.or_false flag).symm
  cases c with
  | lwwRegister r =>
    cases change with
    | set value timestampUs => exact (Bool.or_true _).symm
    | _ => exact other _
  | gCounter c =>
    cases change with
    | increment amount => exact (flag_increment c amount).trans (Bool.or_true _).symm
    | _ => exact other _
  | pnCounter c =>
    cases change with
    | increment amount =>
      show ((c.p.increment amount).dirty || c.n.dirty) = _
      rw [flag_increment]
      exact (Bool.or_true _).symm
    | decrement amount =>
      show (c.p.dirty || (c.n.increment amount).dirty) = _
      rw [flag_increment,Bool.or_true]
      exact (Bool.or_true _).symm
    | _ => exact other _
  | orSet s =>
    cases change with
    | add elem => exact (Bool.or_true _).symm
    | remove elem => exact flag_remove s elem
    | _ => exact other _

theorem hasPendingDelta_step {s : Replica} (flag : s.crdt.hasPendingDelta = s.changed) (action : Action) :
    (step s action).crdt.hasPendingDelta = (step s action).changed := by
  cases action with
  | change change => exact (hasPendingDelta_change s.crdt change).trans (congrArg (· || _) flag)
  | delta => exact hasPendingDelta_delta s.crdt
  | snapshot => exact flag
  | merge data => exact (hasPendingDelta_merge s.crdt data).trans flag

theorem hasPendingDelta_run {s : Replica} (flag : s.crdt.hasPendingDelta = s.changed) (actions : List Action) :
    (run step s actions).crdt.hasPendingDelta = (run step s actions).changed :=
  run_invariant (I := fun s : Replica => s.crdt.hasPendingDelta = s.changed)
    (fun _ action flag => hasPendingDelta_step flag action) flag

theorem hasPendingDelta_mergeAll (c : Crdt) (payloads : List Bytes) :
    (c.mergeAll payloads).hasPendingDelta = c.hasPendingDelta := by
  induction payloads generalizing c with
  | nil => rfl
  | cons data payloads ih => rw [Crdt.mergeAll_cons,ih,hasPendingDelta_merge]

/-! ### What is handed out -/

/-- A delta has bytes when something is pending, and that of the counter of two
    halves always has. -/
theorem delta_ne_nil_iff {c : Crdt} (orderly : Orderly c) :
    c.delta.1 ≠ [] ↔ c.hasPendingDelta = true ∨ c.typeOf = .pnCounter := by
  cases c with
  | lwwRegister r =>
    show r.delta.1 ≠ [] ↔ r.dirty = true ∨ _
    cases pending : r.dirty with
    | false => simp [LwwRegister.delta,pending,Crdt.typeOf]
    | true => simp [LwwRegister.delta,pending,LwwRegister.encodeState,writeU32]
  | gCounter c =>
    obtain ⟨S,sound⟩ := orderly
    show c.delta.1 ≠ [] ↔ c.dirty = true ∨ _
    rw [GCounter.delta_bytes sound]
    cases c.dirty with
    | false => simp [Crdt.typeOf]
    | true => simp [GCounter.encodeEntries]
  | pnCounter c =>
    obtain ⟨S,sound⟩ := orderly .up
    have bytes : c.delta.1 = GCounter.encodeEntries (GCounter.sentEntries c.p) ++ (PnCounter.deltaHalf c.n).1 :=
      congrArg (· ++ (PnCounter.deltaHalf c.n).1) (GCounter.deltaHalf_bytes sound)
    show c.delta.1 ≠ [] ↔ _ ∨ CrdtType.pnCounter = .pnCounter
    rw [bytes]
    simp [GCounter.encodeEntries]
  | orSet s =>
    show s.delta.1 ≠ [] ↔ s.dirty = true ∨ _
    cases pending : s.dirty with
    | false => simp [OrSet.delta,pending,Crdt.typeOf]
    | true => simp [OrSet.delta,pending,OrSet.encodeEntries,writeU16]

theorem second_delta_iff {c : Crdt} (orderly : Orderly c) (payloads : List Bytes) :
    (c.delta.2.mergeAll payloads).delta.1 = [] ↔ c.typeOf ≠ .pnCounter := by
  have after : Orderly (c.delta.2.mergeAll payloads) := orderly.delta.mergeAll payloads
  have quiet : (c.delta.2.mergeAll payloads).hasPendingDelta = false := by
    rw [hasPendingDelta_mergeAll,hasPendingDelta_delta]
  have same : (c.delta.2.mergeAll payloads).typeOf = c.typeOf := by
    rw [Crdt.typeOf_mergeAll,Crdt.typeOf_delta]
  rw [← not_iff_not,← ne_eq,delta_ne_nil_iff after,quiet,same,not_not]
  simp

theorem crdt_run (s : Replica) (actions : List Action) : (run step s actions).crdt = run Crdt.act s.crdt actions := by
  induction actions generalizing s with
  | nil => rfl
  | cons action actions ih => exact ih (step s action)

/-- A new replica has nothing pending. -/
theorem created_clean {n : UInt16} {type : CrdtType} {fresh : Crdt}
    (created : (StateRegistry.new n).createCrdt type = some fresh) :
    fresh.hasPendingDelta = false ∧ fresh.typeOf = type := by
  cases type with
  | lwwRegister => cases created; exact ⟨rfl,rfl⟩
  | gCounter => cases created; exact ⟨rfl,rfl⟩
  | pnCounter => cases created; exact ⟨rfl,rfl⟩
  | orSet => cases created; exact ⟨rfl,rfl⟩
  | _ => cases created

theorem typeOf_run (c : Crdt) (actions : List Action) : (run Crdt.act c actions).typeOf = c.typeOf :=
  run_invariant (I := fun r => r.typeOf = c.typeOf) (fun r action same => (Crdt.typeOf_act r action).trans same) rfl

/-- The flags say whether there was a change since the last delta, and every type but
    the counter of two halves keeps the rest of the contract. -/
theorem contract_iff {n : UInt16} {type : CrdtType} {fresh : Crdt}
    (created : (StateRegistry.new n).createCrdt type = some fresh) (actions : List Action) :
    (run step ⟨fresh,false⟩ actions).crdt.hasPendingDelta = (run step ⟨fresh,false⟩ actions).changed ∧
      (Contract (run step ⟨fresh,false⟩ actions) ↔ type ≠ .pnCounter) := by
  obtain ⟨clean,typed⟩ := created_clean created
  have pending := hasPendingDelta_run (show (Replica.mk fresh false).crdt.hasPendingDelta = _ from clean) actions
  have orderly : Orderly (run step ⟨fresh,false⟩ actions).crdt := by
    rw [crdt_run]
    exact Orderly.reached created actions
  have same : (run step ⟨fresh,false⟩ actions).crdt.typeOf = type := by
    rw [crdt_run,typeOf_run,typed]
  refine ⟨pending,?_⟩
  constructor
  · intro contract
    rw [← same]
    exact (second_delta_iff orderly []).mp (contract.again [])
  · intro other
    rw [← same] at other
    refine ⟨pending,?_,?_⟩
    · rw [delta_ne_nil_iff orderly]
      exact or_iff_left other
    · intro payloads
      exact (second_delta_iff orderly payloads).mpr other

/-- A set that adds and removes an element, and merges the delta of another. -/
theorem contract_iff_orSet :
    (StateRegistry.new 1).createCrdt .orSet = some (.orSet (.new 1)) ∧
      Contract (run step ⟨.orSet (.new 1),false⟩
        [.change (.add [7]),.delta,.merge ((OrSet.new 2).add [8]).delta.1,.change (.remove [8])]) :=
  have created : (StateRegistry.new 1).createCrdt .orSet = some (.orSet (.new 1)) := rfl
  ⟨created,(contract_iff created _).2.mpr (by decide)⟩

/-- Nothing is pending after the delta of an increment, and another delta has bytes. -/
theorem sent_again :
    (run step ⟨.pnCounter (.new 1),false⟩ [.change (.increment 5),.delta]).crdt.hasPendingDelta = false ∧
      (run step ⟨.pnCounter (.new 1),false⟩ [.change (.increment 5),.delta]).crdt.delta.1 =
        [1,0,1,0,0,0,0,0,0,0,5,1,0,1,0,0,0,0,0,0,0,0] := by
  decide

end Rom.Pending
