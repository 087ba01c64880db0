import Rom.CounterRuns

/-!
Sums of counts. A counter adds its counts in 64 bits, and the counter that goes both
ways subtracts two such sums as signed numbers. The sum is exact and never goes down
exactly where no increment and no merge takes the exact sum to 2^64, and the
difference is exact exactly where it fits 63 bits and a sign and both sums have
wrapped as often, read as signed numbers (`values_exact`).
-/
namespace Rom.CounterSums
open Rom.Runs GCounter

def sumOf (l : List GCounterEntry) : ℕ := (l.map fun e => e.count.toNat).sum

/-- The sum of the counts of all nodes. -/
def exactSum (c : GCounter) : ℕ := sumOf c.entries

/-- A counter as it is constructed, for a node or for none. -/
def made : Option UInt16 → GCounter
  | some nodeId => .new nodeId
  | none => { nodeId := 0, entries := [] }

inductive Act where
  | increment (amount : UInt64)
  | merge (data : Bytes)
  deriving DecidableEq, Repr

def step (c : GCounter) : Act → GCounter
  | .increment amount => c.increment amount
  | .merge data => (c.merge data).1

def Exact (c : GCounter) : Prop := c.value.toNat = exactSum c

/-- The value is exact all along and never goes down. -/
def Grows (node : Option UInt16) (acts : List Act) : Prop :=
  OneWay step (fun c d => c.value ≤ d.value) (made node) acts ∧ Everywhere step Exact (made node) acts

/-- The larger of the held and the carried count, summed over all nodes that the
    counter or the payload has. -/
def joinedSum (c : GCounter) (data : Bytes) : ℕ :=
  ∑ n ∈ (nodesOf c.entries ++ nodesOf (carriedEntries data)).toFinset, max (c.countOf n) (largest (carriedEntries data) n)

/-- An increment has room in the sum of all counts, and the larger counts of a merge
    have room in 64 bits. -/
def Room (c : GCounter) : Act → Prop
  | .increment amount => exactSum c + amount.toNat < 2^64
  | .merge data => joinedSum c data < 2^64

instance (c : GCounter) : Decidable (Exact c) := inferInstanceAs (Decidable (_ = _))

/-! ### One sum -/

theorem exact_iff (c : GCounter) : Exact c ↔ exactSum c < 2^64 := by
  have value : c.value.toNat = exactSum c % 2^64 := CounterRuns.value_toNat c
  rw [Exact,value]
  exact Nat.mod_eq_iff_lt (by decide)

theorem sumOf_append (l m : List GCounterEntry) : sumOf (l ++ m) = sumOf l + sumOf m := by
  rw [sumOf,List.map_append,List.sum_append]
  rfl

theorem sumOf_cons (e : GCounterEntry) (l : List GCounterEntry) : sumOf (e :: l) = e.count.toNat + sumOf l := rfl

/-- A changed count changes the sum by as much. -/
theorem sumOf_updated {l : List GCounterEntry} {n : UInt16} {e : GCounterEntry}
    (found : l.find? (fun e => e.nodeId == n) = some e) (f : UInt64 → UInt64) :
    sumOf (updated l n f) + e.count.toNat = sumOf l + (f e.count).toNat := by
  induction l with
  | nil => cases found
  | cons first l ih =>
    rw [updated_cons]
    by_cases here : first.nodeId = n
    · rw [List.find?_cons_of_pos (by simpa using here)] at found
      cases found
      rw [if_pos here,sumOf_cons,sumOf_cons]
      dsimp only
      omega
    · rw [List.find?_cons_of_neg (by simpa using here)] at found
      have rest := ih found
      rw [if_neg here,sumOf_cons,sumOf_cons]
      omega

theorem count_le_sumOf {l : List GCounterEntry} {e : GCounterEntry} (member : e ∈ l) : e.count.toNat ≤ sumOf l :=
  List.le_sum_of_mem (List.mem_map_of_mem member)

theorem localCount_le (c : GCounter) : c.localCount.toNat ≤ exactSum c := by
  rw [localCount]
  cases found : c.find c.nodeId with
  | none => exact Nat.zero_le _
  | some e => exact count_le_sumOf (List.mem_of_find?_eq_some found)

/-- Only the own count changes, and it may wrap. -/
theorem exactSum_increment (c : GCounter) (amount : UInt64) :
    exactSum (c.increment amount) + c.localCount.toNat =
      exactSum c + (c.localCount.toNat + amount.toNat) % 2^64 := by
  rw [localCount,increment]
  cases found : c.find c.nodeId with
  | none =>
    show sumOf (c.entries ++ [⟨c.nodeId,amount⟩]) + 0 = _
    rw [sumOf_append,UInt64.toNat_zero,Nat.zero_add,Nat.mod_eq_of_lt amount.toNat_lt]
    rfl
  | some e => exact sumOf_updated found (· + amount)

theorem exactSum_mergeEntry (st : GCounter × Bool) (nid : UInt16) (cnt : UInt64) :
    exactSum st.1 ≤ exactSum (mergeEntry st nid cnt).1 := by
  rw [mergeEntry,find]
  cases found : st.1.entries.find? (fun e => e.nodeId == nid) with
  | none =>
    show sumOf st.1.entries ≤ sumOf (st.1.entries ++ [⟨nid,cnt⟩])
    rw [sumOf_append]
    exact Nat.le_add_right _ _
  | some e =>
    dsimp only
    split
    · next larger =>
      have replaced : sumOf (updated st.1.entries nid fun _ => cnt) + e.count.toNat = sumOf st.1.entries + cnt.toNat :=
        sumOf_updated found fun _ => cnt
      have less := UInt64.lt_iff_toNat_lt.mp larger
      show sumOf st.1.entries ≤ sumOf (updated st.1.entries nid fun _ => cnt)
      omega
    · exact le_rfl

theorem exactSum_mergeEntries (l : List GCounterEntry) (st : GCounter × Bool) :
    exactSum st.1 ≤ exactSum (mergeEntries st l).1 := by
  induction l generalizing st with
  | nil => exact le_rfl
  | cons e l ih => exact (exactSum_mergeEntry st e.nodeId e.count).trans (ih _)

theorem exactSum_merge (c : GCounter) (data : Bytes) : exactSum c ≤ exactSum (c.merge data).1 := by
  rw [merge_eq]
  exact exactSum_mergeEntries (carriedEntries data) (c,false)

theorem exactSum_merge_eq {c : GCounter} (distinct : (nodesOf c.entries).Nodup) (data : Bytes) :
    exactSum (c.merge data).1 = joinedSum c data := by
  rw [joinedSum,exactSum,sumOf,CounterRuns.sum_entries (S := (nodesOf c.entries ++ nodesOf (carriedEntries data)).toFinset)]
  · exact Finset.sum_congr rfl (fun n _ => countOf_merge c data n)
  · rw [merge_eq]
    exact nodup_mergeEntries distinct
  · intro n member
    rw [merge_eq] at member
    rw [List.mem_toFinset,List.mem_append]
    exact (mem_nodesOf_mergeEntries _ _ n).mp member

theorem distinct_step (c : GCounter) (act : Act) (distinct : (nodesOf c.entries).Nodup) :
    (nodesOf (step c act).entries).Nodup := by
  cases act with
  | increment amount =>
    rw [step]
    cases found : c.find c.nodeId with
    | none =>
      have absent : c.nodeId ∉ nodesOf c.entries := (find_none_iff _ _).mp found
      rw [increment,found,nodesOf,List.map_append]
      exact List.nodup_append'.mpr ⟨distinct,List.nodup_singleton _,by simpa [nodesOf] using absent⟩
    | some e =>
      rw [increment_entries found,nodesOf_updated]
      exact distinct
  | merge data =>
    rw [step,merge_eq]
    exact nodup_mergeEntries distinct

/-- A step from an exact value goes up to an exact value exactly if it has room. -/
theorem grows_step (c : GCounter) (act : Act) (distinct : (nodesOf c.entries).Nodup) (exact : Exact c) :
    c.value ≤ (step c act).value ∧ Exact (step c act) ↔ Room c act := by
  have small := (exact_iff c).mp exact
  have sums : c.value ≤ (step c act).value ∧ Exact (step c act) ↔
      exactSum c ≤ exactSum (step c act) ∧ exactSum (step c act) < 2^64 := by
    rw [← exact_iff,UInt64.le_iff_toNat_le]
    rw [Exact] at exact ⊢
    refine and_congr_left fun exact' => ?_
    rw [exact,exact']
  rw [sums]
  cases act with
  | increment amount =>
    have sum := exactSum_increment c amount
    have own := localCount_le c
    have amounts := amount.toNat_lt
    show exactSum c ≤ exactSum (c.increment amount) ∧ exactSum (c.increment amount) < 2^64 ↔
      exactSum c + amount.toNat < 2^64
    omega
  | merge data =>
    rw [Room,← exactSum_merge_eq distinct data]
    exact and_iff_right (exactSum_merge c data)

theorem exact_made (node : Option UInt16) : Exact (made node) := by
  cases node with
  | none => rfl
  | some nodeId => rfl

theorem grows_iff (node : Option UInt16) (acts : List Act) : Grows node acts ↔ Along step Room (made node) acts := by
  have oneWay : OneWay step (fun c d => c.value ≤ d.value) (made node) acts ↔
      Along step (fun c act => c.value ≤ (step c act).value) (made node) acts :=
    oneWay_iff_along (fun _ => UInt64.le_refl _) fun _ _ _ => UInt64.le_trans
  have first : (nodesOf (made node).entries).Nodup := by
    cases node with
    | none => exact List.nodup_nil
    | some nodeId => exact List.nodup_singleton nodeId
  rw [Grows,oneWay]
  exact along_everywhere_iff_along distinct_step grows_step first (exact_made node)

/-! ### Two sums -/

inductive PnAct where
  | increment (amount : UInt64)
  | decrement (amount : UInt64)
  | merge (data : Bytes)
  deriving DecidableEq, Repr

def pnStep (c : PnCounter) : PnAct → PnCounter
  | .increment amount => c.increment amount
  | .decrement amount => c.decrement amount
  | .merge data => (c.merge data).1

def pnMade (node : Option UInt16) : PnCounter := ⟨made node,made node⟩

/-- The subtraction of the values as signed numbers stays in 64 bits. -/
def NoOverflow (c : PnCounter) : Prop :=
  -2^63 ≤ c.p.value.toInt64.toInt - c.n.value.toInt64.toInt ∧
    c.p.value.toInt64.toInt - c.n.value.toInt64.toInt < 2^63

/-- Without overflow the value is the difference of the exact sums. -/
def PnExact (c : PnCounter) : Prop := NoOverflow c ∧ c.value.toInt = (exactSum c.p : ℤ) - exactSum c.n

/-- How often a sum has wrapped, as a signed number. -/
def turns (sum : ℕ) : ℕ := (sum + 2^63) / 2^64

/-- The difference fits, and both sums have wrapped as often. -/
def PnRoom (c : PnCounter) : Prop :=
  (-2^63 ≤ (exactSum c.p : ℤ) - exactSum c.n ∧ (exactSum c.p : ℤ) - exactSum c.n < 2^63) ∧
    turns (exactSum c.p) = turns (exactSum c.n)

instance (c : PnCounter) : Decidable (NoOverflow c) := inferInstanceAs (Decidable (_ ∧ _))
instance (c : PnCounter) : Decidable (PnExact c) := inferInstanceAs (Decidable (_ ∧ _))

/-- A value as a signed number is the sum less its turns. -/
theorem signed_value (c : GCounter) : c.value.toInt64.toInt = (exactSum c : ℤ) - 2^64 * turns (exactSum c) := by
  have value : c.value.toNat = exactSum c % 2^64 := CounterRuns.value_toNat c
  have signed : c.value.toInt64.toInt = if 2 * c.value.toNat < 2^64 then (c.value.toNat : ℤ) else c.value.toNat - 2^64 :=
    BitVec.toInt_eq_toNat_cond c.value.toBitVec
  rw [signed,value,turns]
  split <;> omega

theorem pnExact_iff (c : PnCounter) : PnExact c ↔ PnRoom c := by
  rw [PnExact,PnRoom,NoOverflow,PnCounter.value,Int64.toInt_sub,Int.bmod_def,signed_value c.p,signed_value c.n]
  omega

/-- The value of a grow-only counter is exact and never goes down exactly where every
    increment and merge has room, and that of a counter that goes both ways is exact
    exactly where the difference fits and both sums have wrapped as often. -/
theorem values_exact (node : Option UInt16) :
    (∀ acts : List Act, Grows node acts ↔ Along step Room (made node) acts) ∧
      ∀ acts : List PnAct, Everywhere pnStep PnExact (pnMade node) acts ↔ Everywhere pnStep PnRoom (pnMade node) acts := by
  refine ⟨grows_iff node,fun acts => ?_⟩
  exact everywhere_congr (I := fun _ => True) (fun _ _ _ => trivial) (fun c _ => pnExact_iff c) trivial

/-- A count of 1 from another node takes the value from 2^64-1 to 0. An increment by
    2^63 makes the signed value -2^63, and with 2^64-1 counted down the subtraction from
    2^63-1 overflows. -/
theorem values_wrap :
    (run step (made (some 1)) [.increment 0xffffffffffffffff]).value = 0xffffffffffffffff ∧
      (run step (made (some 1)) [.increment 0xffffffffffffffff,.merge [1,0,2,0,0,0,0,0,0,0,1]]).value = 0 ∧
      ¬ Grows (some 1) [.increment 0xffffffffffffffff,.merge [1,0,2,0,0,0,0,0,0,0,1]] ∧
      (run pnStep (pnMade (some 1)) [.increment 0x8000000000000000]).value.toInt = -2^63 ∧
      ¬ Everywhere pnStep PnExact (pnMade (some 1)) [.increment 0x8000000000000000] ∧
      ¬ NoOverflow (run pnStep (pnMade (some 1)) [.increment 0x7fffffffffffffff,.decrement 0xffffffffffffffff]) := by
  refine ⟨by decide +kernel,by decide +kernel,fun grows => ?_,by decide +kernel,by decide +kernel,by decide +kernel⟩
  exact absurd grows.2 (by decide +kernel)

end Rom.CounterSums
