import Rom.Replication

/-!
Replicas that count. Each replica holds a count for each key, of which one is its
own; an operation adds to the own count, a delta carries counts of its author,
the own one among them, and a merge takes the larger counts. However deltas are
lost, reordered and repeated, no replica holds more for a key than its owner has
added (`counted_run`), and one that has merged a delta which the owner handed out
after its last operation holds exactly that (`held_eq`).
-/
namespace Rom.Counting
open Rom.Runs Rom.Replication
variable {ι R Op M K : Type*}

/-- How a replicated object counts. `Good` and `Fine` are what its states and
    deltas have to be for it to count right. -/
structure Tally (obj : Object R Op M) (K : Type*) where
  own : R → K
  held : R → K → ℕ
  carried : M → K → ℕ
  /-- What an operation adds to the own count. -/
  amount : Op → ℕ
  /-- Own counts have to stay below it. -/
  limit : ℕ
  Good : R → Prop
  Fine : M → Prop

/-- What makes the object count. -/
structure Lawful {obj : Object R Op M} (t : Tally obj K) [DecidableEq K] : Prop where
  own_apply : ∀ r op, t.own (obj.apply r op) = t.own r
  own_delta : ∀ r, t.own (obj.delta r).2 = t.own r
  own_merge : ∀ r d, t.own (obj.merge r d) = t.own r
  held_apply : ∀ r op k, t.held r (t.own r) + t.amount op < t.limit →
    t.held (obj.apply r op) k = if k = t.own r then t.held r k + t.amount op else t.held r k
  held_delta : ∀ r k, t.held (obj.delta r).2 k = t.held r k
  held_merge : ∀ r d k, t.held (obj.merge r d) k = max (t.held r k) (t.carried d k)
  carried_delta : ∀ r d k, t.Good r → (obj.delta r).1 = some d → t.carried d k ≤ t.held r k
  carried_own : ∀ r d, t.Good r → (obj.delta r).1 = some d → t.carried d (t.own r) = t.held r (t.own r)
  good_apply : ∀ r op, t.Good r → t.Good (obj.apply r op)
  good_delta : ∀ r, t.Good r → t.Good (obj.delta r).2
  good_merge : ∀ r d, t.Good r → t.Fine d → t.Good (obj.merge r d)
  fine_delta : ∀ r d, t.Good r → (obj.delta r).1 = some d → t.Fine d

variable {obj : Object R Op M} [DecidableEq ι]

/-- What an event adds at a replica. -/
def addedBy (amount : Op → ℕ) (i : ι) : Event ι Op → ℕ
  | .act j op => if j = i then amount op else 0
  | .emit _ => 0
  | .deliver _ _ => 0

/-- What the operations of a run add at a replica. -/
def added (amount : Op → ℕ) : List (Event ι Op) → ι → ℕ
  | [], _ => 0
  | e :: es, i => addedBy amount i e + added amount es i

variable (t : Tally obj K)

/-- What is true when the replicas have added these totals. -/
structure Counted (ids : ι → K) (total : ι → ℕ) (s : Network ι R M) : Prop where
  own : ∀ i, t.own (s.node i) = ids i
  good : ∀ i, t.Good (s.node i)
  fine : ∀ d ∈ s.sent, t.Fine d.2
  held_own : ∀ i, t.held (s.node i) (ids i) = total i
  held_le : ∀ i j, t.held (s.node i) (ids j) ≤ total j
  carried_le : ∀ d ∈ s.sent, ∀ j, t.carried d.2 (ids j) ≤ total j
  merged_le : ∀ i k d, s.sent[k]? = some d → k ∈ s.merged i → ∀ key, t.carried d.2 key ≤ t.held (s.node i) key

/-- From the given place on, every delta of the replica carries this own count. -/
def Reported (ids : ι → K) (j : ι) (count first : ℕ) (s : Network ι R M) : Prop :=
  ∀ k d, first ≤ k → s.sent[k]? = some (j,d) → t.carried d (ids j) = count

section
variable {amount : Op → ℕ}

theorem added_cons (e : Event ι Op) (es : List (Event ι Op)) (i : ι) :
    added amount (e :: es) i = addedBy amount i e + added amount es i := rfl

theorem added_append (es fs : List (Event ι Op)) (i : ι) :
    added amount (es ++ fs) i = added amount es i + added amount fs i := by
  induction es with
  | nil => exact (Nat.zero_add _).symm
  | cons e es ih => rw [List.cons_append,added_cons,added_cons,ih,Nat.add_assoc]

theorem added_eq_zero {es : List (Event ι Op)} {i : ι} (quiet : ∀ op, .act i op ∉ es) : added amount es i = 0 := by
  induction es with
  | nil => rfl
  | cons e es ih =>
    have here : addedBy amount i e = 0 := by
      cases e with
      | act j op =>
        rw [addedBy,if_neg]
        rintro rfl
        exact quiet op List.mem_cons_self
      | emit j => rfl
      | deliver j k => rfl
    rw [added_cons,here,ih (fun op member => quiet op (List.mem_cons_of_mem _ member))]

end

section
variable {t} [DecidableEq K] {ids : ι → K} {total : ι → ℕ} {s : Network ι R M}

/-- Counts only grow. -/
theorem held_step (lawful : Lawful t) (counted : Counted t ids total s) {e : Event ι Op}
    (room : ∀ i, total i + addedBy t.amount i e < t.limit) (i : ι) (key : K) :
    t.held (s.node i) key ≤ t.held ((step obj s e).node i) key := by
  rcases node_cases e i with same | ⟨op,rfl,node⟩ | ⟨rfl,node⟩ | ⟨k,d,rfl,_,node⟩
  · rw [same]
  · have fits := room i
    rw [addedBy,if_pos rfl,← counted.held_own i,← counted.own i] at fits
    rw [node,lawful.held_apply _ op key fits]
    split
    · exact Nat.le_add_right _ _
    · exact le_rfl
  · rw [node,lawful.held_delta]
  · rw [node,lawful.held_merge]
    exact le_max_left _ _

theorem own_step (lawful : Lawful t) (counted : Counted t ids total s) (e : Event ι Op) (i : ι) :
    t.own ((step obj s e).node i) = ids i := by
  rw [← counted.own i]
  rcases node_cases e i with same | ⟨op,_,node⟩ | ⟨_,node⟩ | ⟨k,d,_,_,node⟩
  · rw [same]
  · rw [node,lawful.own_apply]
  · rw [node,lawful.own_delta]
  · rw [node,lawful.own_merge]

theorem good_step (lawful : Lawful t) (counted : Counted t ids total s) (e : Event ι Op) (i : ι) :
    t.Good ((step obj s e).node i) := by
  have before := counted.good i
  rcases node_cases e i with same | ⟨op,_,node⟩ | ⟨_,node⟩ | ⟨k,d,_,found,node⟩
  · rw [same]
    exact before
  · rw [node]
    exact lawful.good_apply _ op before
  · rw [node]
    exact lawful.good_delta _ before
  · rw [node]
    exact lawful.good_merge _ d.2 before (counted.fine d (List.mem_of_getElem? found))

theorem fine_step (lawful : Lawful t) (counted : Counted t ids total s) (e : Event ι Op) :
    ∀ d ∈ (step obj s e).sent, t.Fine d.2 := by
  intro d member
  rcases mem_sent_step member with old | ⟨_,emitted⟩
  · exact counted.fine d old
  · exact lawful.fine_delta _ d.2 (counted.good d.1) emitted

/-- A step changes what is held for an owner by what the owner adds itself, or
    by what some delta carries. -/
theorem held_le_step (lawful : Lawful t) (distinct : Function.Injective ids) (counted : Counted t ids total s)
    {e : Event ι Op} (room : ∀ i, total i + addedBy t.amount i e < t.limit) (i j : ι) :
    t.held ((step obj s e).node i) (ids j) ≤ total j + addedBy t.amount j e := by
  have before := counted.held_le i j
  rcases node_cases e i with same | ⟨op,rfl,node⟩ | ⟨rfl,node⟩ | ⟨k,d,rfl,found,node⟩
  · rw [same]
    exact before.trans (Nat.le_add_right _ _)
  · have fits := room i
    rw [addedBy,if_pos rfl,← counted.held_own i,← counted.own i] at fits
    rw [node,lawful.held_apply _ op _ fits,counted.own i]
    by_cases same : ids j = ids i
    · rw [if_pos same,addedBy,if_pos (distinct same).symm]
      exact Nat.add_le_add_right before _
    · rw [if_neg same]
      exact before.trans (Nat.le_add_right _ _)
  · rw [node,lawful.held_delta]
    exact before
  · rw [node,lawful.held_merge]
    exact max_le before (counted.carried_le d (List.mem_of_getElem? found) j)

theorem held_own_step (lawful : Lawful t) (distinct : Function.Injective ids) (counted : Counted t ids total s)
    {e : Event ι Op} (room : ∀ i, total i + addedBy t.amount i e < t.limit) (i : ι) :
    t.held ((step obj s e).node i) (ids i) = total i + addedBy t.amount i e := by
  apply le_antisymm (held_le_step lawful distinct counted room i i)
  have before := counted.held_own i
  cases e with
  | act j op =>
    by_cases same : j = i
    · subst same
      have fits := room j
      rw [addedBy,if_pos rfl,← before,← counted.own j] at fits
      have node : (step obj s (.act j op)).node j = obj.apply (s.node j) op := by simp [step]
      rw [node,lawful.held_apply _ op _ fits,counted.own j,if_pos rfl,before,addedBy,if_pos rfl]
    · rw [addedBy,if_neg same,Nat.add_zero,← before]
      exact held_step lawful counted room i _
  | emit j =>
    rw [addedBy,Nat.add_zero,← before]
    exact held_step lawful counted room i _
  | deliver j k =>
    rw [addedBy,Nat.add_zero,← before]
    exact held_step lawful counted room i _

theorem carried_le_step (lawful : Lawful t) (counted : Counted t ids total s) (e : Event ι Op) :
    ∀ d ∈ (step obj s e).sent, ∀ j, t.carried d.2 (ids j) ≤ total j + addedBy t.amount j e := by
  intro d member j
  apply Nat.le_trans _ (Nat.le_add_right _ _)
  rcases mem_sent_step member with old | ⟨_,emitted⟩
  · exact counted.carried_le d old j
  · exact (lawful.carried_delta _ d.2 (ids j) (counted.good d.1) emitted).trans (counted.held_le d.1 j)

theorem merged_le_step (lawful : Lawful t) (known : MergedSent s) (counted : Counted t ids total s) {e : Event ι Op}
    (room : ∀ i, total i + addedBy t.amount i e < t.limit) (i : ι) (k : Nat) (d : ι × M)
    (found : (step obj s e).sent[k]? = some d) (merged : k ∈ (step obj s e).merged i) (key : K) :
    t.carried d.2 key ≤ t.held ((step obj s e).node i) key := by
  rcases mem_merged_step merged with old | ⟨rfl,m,sent⟩
  · have inside := known i k old
    have before := List.getElem?_eq_getElem inside
    rw [sent_kept before] at found
    cases found
    exact (counted.merged_le i k _ before old key).trans (held_step lawful counted room i key)
  · rw [sent_kept sent] at found
    cases found
    have node : (step obj s (.deliver i k)).node i = obj.merge (s.node i) d.2 := by simp [step,sent]
    rw [node,lawful.held_merge]
    exact le_max_right _ _

theorem counted_step (lawful : Lawful t) (distinct : Function.Injective ids) (known : MergedSent s)
    (counted : Counted t ids total s) {e : Event ι Op} (room : ∀ i, total i + addedBy t.amount i e < t.limit) :
    Counted t ids (fun i => total i + addedBy t.amount i e) (step obj s e) where
  own := own_step lawful counted e
  good := good_step lawful counted e
  fine := fine_step lawful counted e
  held_own := held_own_step lawful distinct counted room
  held_le := held_le_step lawful distinct counted room
  carried_le := carried_le_step lawful counted e
  merged_le := merged_le_step lawful known counted room

theorem counted_run (lawful : Lawful t) (distinct : Function.Injective ids) {es : List (Event ι Op)}
    (known : MergedSent s) (counted : Counted t ids total s) (room : ∀ i, total i + added t.amount es i < t.limit) :
    MergedSent (run (step obj) s es) ∧ Counted t ids (fun i => total i + added t.amount es i) (run (step obj) s es) := by
  induction es generalizing s total with
  | nil => exact ⟨known,counted⟩
  | cons e es ih =>
    simp only [added_cons,← Nat.add_assoc] at room ⊢
    have now : ∀ i, total i + addedBy t.amount i e < t.limit := fun i => Nat.lt_of_le_of_lt (Nat.le_add_right _ _) (room i)
    exact ih (mergedSent_step e known) (counted_step lawful distinct known counted now) room

/-- Counts only grow over a run. -/
theorem held_run (lawful : Lawful t) (distinct : Function.Injective ids) {es : List (Event ι Op)}
    (known : MergedSent s) (counted : Counted t ids total s) (room : ∀ i, total i + added t.amount es i < t.limit) (i : ι)
    (key : K) : t.held (s.node i) key ≤ t.held ((run (step obj) s es).node i) key := by
  induction es generalizing s total with
  | nil => exact le_rfl
  | cons e es ih =>
    simp only [added_cons,← Nat.add_assoc] at room
    have now : ∀ i, total i + addedBy t.amount i e < t.limit := fun i => Nat.lt_of_le_of_lt (Nat.le_add_right _ _) (room i)
    exact (held_step lawful counted now i key).trans
      (ih (mergedSent_step e known) (counted_step lawful distinct known counted now) room)

/-- What a replica hands out carries its total. -/
theorem reported_step (lawful : Lawful t) (counted : Counted t ids total s) {j : ι} {first : Nat} {e : Event ι Op}
    (reported : Reported t ids j (total j) first s) : Reported t ids j (total j) first (step obj s e) := by
  intro k d later found
  rcases sent_cases found with old | ⟨_,_,emitted⟩
  · exact reported k d later old
  · have carried := lawful.carried_own _ d (counted.good j) emitted
    rwa [counted.own j,counted.held_own j] at carried

/-- In a run without operations of the replica, all it hands out carries the same. -/
theorem reported_run (lawful : Lawful t) (distinct : Function.Injective ids) {j : ι} {first : Nat}
    {es : List (Event ι Op)} (known : MergedSent s) (counted : Counted t ids total s)
    (room : ∀ i, total i + added t.amount es i < t.limit) (quiet : ∀ op, .act j op ∉ es)
    (reported : Reported t ids j (total j) first s) : Reported t ids j (total j) first (run (step obj) s es) := by
  induction es generalizing s total with
  | nil => exact reported
  | cons e es ih =>
    have here : total j + addedBy t.amount j e = total j := by
      have none : added t.amount (e :: es) j = 0 := added_eq_zero quiet
      rw [added_cons] at none
      omega
    simp only [added_cons,← Nat.add_assoc] at room
    have now : ∀ i, total i + addedBy t.amount i e < t.limit := fun i => Nat.lt_of_le_of_lt (Nat.le_add_right _ _) (room i)
    have later := ih (mergedSent_step e known) (counted_step lawful distinct known counted now) room
      (fun op member => quiet op (List.mem_cons_of_mem _ member))
    rw [here] at later
    exact later (reported_step lawful counted reported)

end

/-! ### Whole runs -/

/-- The replica has merged a delta that the other one handed out after its last
    operation. -/
def Reached (obj : Object R Op M) (s : Network ι R M) (es : List (Event ι Op)) (i j : ι) : Prop :=
  ∃ before after, es = before ++ after ∧ (∀ op, .act j op ∉ after) ∧
    ∃ k d, (run (step obj) s before).sent.length ≤ k ∧ (run (step obj) s es).sent[k]? = some (j,d) ∧
      k ∈ (run (step obj) s es).merged i

section
variable [DecidableEq K] {t} {ids : ι → K} {s : Network ι R M} {es : List (Event ι Op)}

/-- Replicas that start from nothing hold what they have added. -/
theorem counted_of_zero (lawful : Lawful t) (distinct : Function.Injective ids) (known : MergedSent s)
    (counted : Counted t ids (fun _ => 0) s) (room : ∀ i, added t.amount es i < t.limit) :
    Counted t ids (added t.amount es) (run (step obj) s es) := by
  obtain ⟨_,ended⟩ := counted_run lawful distinct known counted (by simpa using room)
  simpa only [Nat.zero_add] using ended

/-- A delta that a replica handed out after its last operation carries all it has
    added. -/
theorem carried_of_last (lawful : Lawful t) (distinct : Function.Injective ids) (known : MergedSent s)
    (counted : Counted t ids (fun _ => 0) s) {before after : List (Event ι Op)} {j : ι}
    (room : ∀ i, added t.amount (before ++ after) i < t.limit) (quiet : ∀ op, .act j op ∉ after) {k : Nat} {d : M}
    (later : (run (step obj) s before).sent.length ≤ k)
    (found : (run (step obj) s (before ++ after)).sent[k]? = some (j,d)) :
    t.carried d (ids j) = added t.amount (before ++ after) j := by
  have roomBefore : ∀ i, 0 + added t.amount before i < t.limit := by
    intro i
    have whole := room i
    rw [added_append] at whole
    omega
  have roomAfter : ∀ i, 0 + added t.amount before i + added t.amount after i < t.limit := by
    intro i
    rw [Nat.zero_add,← added_append]
    exact room i
  obtain ⟨known',counted'⟩ := counted_run lawful distinct known counted roomBefore
  have none : Reported t ids j (0 + added t.amount before j) (run (step obj) s before).sent.length
      (run (step obj) s before) := by
    intro k d later found
    exact absurd (List.getElem?_eq_some_iff.mp found).1 (Nat.not_lt.mpr later)
  rw [run_append] at found
  have carried := reported_run lawful distinct known' counted' roomAfter quiet none k d later found
  rw [carried,added_append,added_eq_zero quiet,Nat.zero_add,Nat.add_zero]

/-- A replica that the last count of every other one has reached holds exactly
    what each of them has added. -/
theorem held_eq (lawful : Lawful t) (distinct : Function.Injective ids) (known : MergedSent s)
    (counted : Counted t ids (fun _ => 0) s) (room : ∀ i, added t.amount es i < t.limit) {i : ι}
    (reached : ∀ j, j ≠ i → (∃ op, .act j op ∈ es) → Reached obj s es i j) (j : ι) :
    t.held ((run (step obj) s es).node i) (ids j) = added t.amount es j := by
  have ended := counted_of_zero lawful distinct known counted room
  by_cases same : j = i
  · rw [same]
    exact ended.held_own i
  apply le_antisymm (ended.held_le i j)
  by_cases changed : ∃ op, .act j op ∈ es
  · obtain ⟨before,after,rfl,quiet,k,d,later,found,merged⟩ := reached j same changed
    rw [← carried_of_last lawful distinct known counted room quiet later found]
    exact ended.merged_le i k (j,d) found merged (ids j)
  · rw [added_eq_zero (fun op member => changed ⟨op,member⟩)]
    exact Nat.zero_le _

end
end Rom.Counting
