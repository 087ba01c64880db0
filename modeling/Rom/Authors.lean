import Rom.LwwRegister
import Rom.Runs

/-!
Who wrote what a register holds. A write should carry the node id that the register
was constructed with; it carries the one of the last write that a merge took over
(`identified_step`), since there is one field for both. Writes carry their author
exactly where each of them comes after no merge, or after one that brought the
register its own id back, and then no two writes of a system carry one stamp
(`writes_stamped_by_author`).
-/
namespace Rom.Authors
open Rom.Runs LwwRegister

inductive Act where
  | set (data : Bytes) (timestampUs : UInt32)
  | merge (data : Bytes)
  | delta
  | snapshot
  deriving DecidableEq, Repr

/-- A register, with whether its latest change was a local write, and the node id
    that the last merge to change it took over. -/
structure Trail where
  register : LwwRegister
  wrote : Bool := false
  adopted : Option UInt16 := none
  deriving DecidableEq, Repr

/-- The node id that the bytes of a state carry. -/
def nodeOf (data : Bytes) : UInt16 := readU16 (data.drop 4)

def step (s : Trail) : Act → Trail
  | .set data timestampUs => { s with register := s.register.set data timestampUs, wrote := true }
  | .merge data =>
    { register := (s.register.merge data).1
      wrote := if (s.register.merge data).2 then false else s.wrote
      adopted := if (s.register.merge data).2 then some (nodeOf data) else s.adopted }
  | .delta => { s with register := s.register.delta.2 }
  | .snapshot => s

def begin (n : UInt16) : Trail := { register := LwwRegister.new n }

/-- After a local write the bytes that the register sends carry the node id. -/
def Signed (n : UInt16) (s : Trail) : Prop :=
  s.wrote = true →
    nodeOf s.register.snapshot = n ∧ (s.register.delta.1 ≠ [] → nodeOf s.register.delta.1 = n)

/-- The register of node `n` is signed all along the run. -/
def Stamped (n : UInt16) (acts : List Act) : Prop := Everywhere step (Signed n) (begin n) acts

/-- A local write comes where nothing was taken over, or last something of the
    node itself. -/
def OwnWrite (n : UInt16) (s : Trail) : Act → Prop
  | .set _ _ => s.adopted.getD n = n
  | _ => True

def OwnWrites (n : UInt16) (acts : List Act) : Prop := Along step (OwnWrite n) (begin n) acts

instance (n : UInt16) (s : Trail) : Decidable (Signed n s) := inferInstanceAs (Decidable (_ → _))
instance (n : UInt16) (acts : List Act) : Decidable (Stamped n acts) := decidableEverywhere _ _ _ _

/-- The times of the local writes. -/
def setTimes (acts : List Act) : List UInt32 :=
  acts.filterMap fun act => match act with
    | .set _ timestampUs => some timestampUs
    | _ => none

/-- The stamp that a local write is sent with. -/
def writeStamp (s : Trail) : Act → List Stamp
  | .set data timestampUs => [wireStamp (s.register.set data timestampUs).snapshot]
  | _ => []

/-- The stamps of the local writes of a run. -/
def writeStamps (n : UInt16) (acts : List Act) : List Stamp := outputs step writeStamp (begin n) acts

section
variable {ι : Type*}

/-- Every register writes at later and later times. -/
def Clocked (runs : ι → List Act) : Prop := ∀ i, (setTimes (runs i)).Pairwise (· < ·)

/-- Two writes of the system with one stamp are the same write. -/
def Unique (ids : ι → UInt16) (runs : ι → List Act) : Prop :=
  ∀ (i j : ι) (k l : ℕ) (stamp : Stamp), (writeStamps (ids i) (runs i))[k]? = some stamp →
    (writeStamps (ids j) (runs j))[l]? = some stamp → i = j ∧ k = l

end

/-! ### One step -/

@[simp] theorem nodeOf_encodeState (r : LwwRegister) : nodeOf r.encodeState = r.nodeId := by
  simp [nodeOf,encodeState]

theorem merge_spec (r : LwwRegister) (data : Bytes) :
    r.merge data = (r,false) ∨ (r.merge data).2 = true ∧ (r.merge data).1.nodeId = nodeOf data := by
  unfold merge
  split
  · exact .inl rfl
  · dsimp only
    split
    · exact .inr ⟨rfl,rfl⟩
    · exact .inl rfl

theorem nodeId_delta (r : LwwRegister) : r.delta.2.nodeId = r.nodeId := by
  unfold delta
  split <;> rfl

/-- Only the node id of the register matters for what its bytes carry. -/
theorem signed_iff (n : UInt16) (s : Trail) : Signed n s ↔ (s.wrote = true → s.register.nodeId = n) := by
  rw [Signed]
  refine imp_congr_right fun _ => ?_
  rw [snapshot,nodeOf_encodeState]
  refine and_iff_left_of_imp fun own sent => ?_
  rw [delta] at sent ⊢
  split at sent
  · exact absurd rfl sent
  · next dirty =>
    rw [if_neg dirty]
    exact (nodeOf_encodeState _).trans own

/-- The node id is the one taken over last, and the first one before that. -/
def Identified (n : UInt16) (s : Trail) : Prop := s.register.nodeId = s.adopted.getD n

theorem identified_begin (n : UInt16) : Identified n (begin n) := rfl

theorem identified_step (n : UInt16) (s : Trail) (act : Act) (held : Identified n s) : Identified n (step s act) := by
  cases act with
  | set data timestampUs => exact held
  | merge data =>
    rcases merge_spec s.register data with kept | ⟨changed,node⟩
    · rw [step,kept]
      exact held
    · simp only [Identified,step,changed,if_true]
      exact node
  | delta => exact (nodeId_delta s.register).trans held
  | snapshot => exact held

/-- A step keeps the bytes signed exactly if it is not a write under another's id. -/
theorem signed_step (n : UInt16) (s : Trail) (act : Act) (held : Identified n s) (signed : Signed n s) :
    Signed n (step s act) ↔ OwnWrite n s act := by
  rw [signed_iff] at signed ⊢
  cases act with
  | set data timestampUs =>
    rw [OwnWrite,← held]
    exact forall_prop_of_true rfl
  | merge data =>
    refine iff_of_true ?_ trivial
    rcases merge_spec s.register data with kept | ⟨changed,_⟩
    · rw [step,kept]
      exact signed
    · intro wrote
      rw [step,if_pos changed] at wrote
      exact absurd wrote Bool.false_ne_true
  | delta =>
    refine iff_of_true (fun wrote => ?_) trivial
    exact (nodeId_delta s.register).trans (signed wrote)
  | snapshot => exact iff_of_true signed trivial

/-! ### Runs -/

theorem stamped_iff (n : UInt16) (acts : List Act) : Stamped n acts ↔ OwnWrites n acts := by
  have first : Signed n (begin n) := (signed_iff n _).mpr fun wrote => absurd wrote Bool.false_ne_true
  exact everywhere_iff_along (identified_step n) (signed_step n) (identified_begin n) first

/-- Own writes are sent with their time and the id of the node. -/
theorem outputs_of_own {n : UInt16} {s : Trail} {acts : List Act} (held : Identified n s)
    (own : Along step (OwnWrite n) s acts) : outputs step writeStamp s acts = (setTimes acts).map (stampOf · n) := by
  induction acts generalizing s with
  | nil => rfl
  | cons act acts ih =>
    rw [outputs,ih (identified_step n s act held) own.2]
    cases act with
    | set data timestampUs =>
      have author : s.register.nodeId = n := held.trans own.1
      rw [writeStamp,snapshot,wireStamp_encodeState]
      simp [setTimes,stamp,LwwRegister.set,author]
    | merge data => rfl
    | delta => rfl
    | snapshot => rfl

theorem writeStamps_of_own {n : UInt16} {acts : List Act} (own : OwnWrites n acts) :
    writeStamps n acts = (setTimes acts).map (stampOf · n) := outputs_of_own (identified_begin n) own

/-- Own writes at later and later times have different stamps. -/
theorem unique_of_own {ι : Type*} {ids : ι → UInt16} {runs : ι → List Act} (distinct : Function.Injective ids)
    (clocked : Clocked runs) (own : ∀ i, OwnWrites (ids i) (runs i)) : Unique ids runs := by
  intro i j k l stamp left right
  rw [writeStamps_of_own (own i),List.getElem?_map,Option.map_eq_some_iff] at left
  rw [writeStamps_of_own (own j),List.getElem?_map,Option.map_eq_some_iff] at right
  obtain ⟨time,found,rfl⟩ := left
  obtain ⟨time',found',same⟩ := right
  obtain ⟨rfl,node⟩ := stampOf_injective same
  cases distinct node
  have nodup : (setTimes (runs i)).Nodup := (clocked i).imp UInt32.ne_of_lt
  obtain ⟨inside,_⟩ := List.getElem?_eq_some_iff.mp found
  exact ⟨rfl,(List.getElem?_inj inside nodup).mp (found.trans found'.symm)⟩

/-- The bytes of a register carry its author all along exactly where its writes come
    under its own id. In a system of registers with different ids that write at later
    and later times, the writes then have different stamps too. -/
theorem writes_stamped_by_author (n : UInt16) (acts : List Act) :
    (Stamped n acts ↔ OwnWrites n acts) ∧
      ∀ (ι : Type) (ids : ι → UInt16) (runs : ι → List Act), Function.Injective ids → Clocked runs →
        ((∀ i, Stamped (ids i) (runs i)) ∧ Unique ids runs ↔ ∀ i, OwnWrites (ids i) (runs i)) := by
  refine ⟨stamped_iff n acts,fun ι ids runs distinct clocked => ?_⟩
  simp only [stamped_iff]
  exact and_iff_left_of_imp (unique_of_own distinct clocked)

/-- Node 1 merges what node 2 wrote at 5 and writes at 7, when node 2 writes again.
    Both writes are sent as writes of node 2 at 7. -/
theorem adopted_author :
    ((LwwRegister.new 2).set [] 5).delta.1 = [0,0,0,5,0,2] ∧
      ¬ Stamped 1 [.merge [0,0,0,5,0,2],.set [1] 7] ∧
      Function.Injective (fun second : Bool => if second then (2 : UInt16) else 1) ∧
      Clocked (fun second : Bool => if second then [.set [] 5,.delta,.set [2] 7] else [.merge [0,0,0,5,0,2],.set [1] 7]) ∧
      ¬ Unique (fun second : Bool => if second then 2 else 1)
        (fun second : Bool => if second then [.set [] 5,.delta,.set [2] 7] else [.merge [0,0,0,5,0,2],.set [1] 7]) := by
  refine ⟨by decide,by decide,by decide,by unfold Clocked; decide,fun unique => ?_⟩
  have same := unique true false 1 0 (stampOf 7 2) (by decide) (by decide)
  exact absurd same.1 (by decide)

end Rom.Authors
