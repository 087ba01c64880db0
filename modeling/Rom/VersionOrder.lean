import Rom.VersionVector
import Rom.Keyed
import Mathlib.Order.Lattice

/-!
The order of version vectors. A vector is seen as the level of each node, 0 for a
node without an entry (`levels`). With one entry for each node, dominance is the
pointwise order of the levels, `==` their equality and a merge their join
(`dominates_iff_le`, `equals_iff`, `levels_merge`). Increments, changes and merges
of such vectors keep one entry for each node, so what they build is a
join-semilattice (`versions_semilattice`).
-/
namespace Rom
namespace VersionVector

/-- The nodes that have an entry. -/
def nodes (v : VersionVector) : List UInt16 := v.entries.map VersionEntry.nodeId

/-- No two entries are of one node. -/
def Unique (v : VersionVector) : Prop := v.nodes.Nodup

/-- How far a vector is for each node. -/
def levels (v : VersionVector) (nodeId : UInt16) : ℕ := (v.get nodeId).toNat

instance (v : VersionVector) : Decidable v.Unique := inferInstanceAs (Decidable (List.Nodup _))

@[simp] theorem nodes_cons (e : VersionEntry) (l : List VersionEntry) :
    nodes ⟨e :: l⟩ = e.nodeId :: nodes ⟨l⟩ := rfl

theorem get_cons (e : VersionEntry) (l : List VersionEntry) (n : UInt16) :
    get ⟨e :: l⟩ n = if e.nodeId = n then e.sequence else get ⟨l⟩ n := by
  by_cases same : e.nodeId = n
  · simp [get,find,same]
  · simp [get,find,same]

theorem find_eq_none_iff (v : VersionVector) (n : UInt16) : v.find n = none ↔ n ∉ v.nodes :=
  Keyed.find_eq_none_iff VersionEntry.nodeId v.entries n

theorem get_of_not_mem {v : VersionVector} {n : UInt16} (absent : n ∉ v.nodes) : v.get n = 0 := by
  rw [get,(find_eq_none_iff v n).mpr absent]

theorem get_of_mem {v : VersionVector} (unique : v.Unique) {e : VersionEntry} (member : e ∈ v.entries) :
    v.get e.nodeId = e.sequence := by
  rw [get,find,(Keyed.find_eq_some_iff VersionEntry.nodeId unique e.nodeId e).mpr ⟨member,rfl⟩]

/-! ### Changing a node -/

/-- Changes the level of a node, with an entry for it where there is none. -/
def change (v : VersionVector) (n : UInt16) (f : UInt32 → UInt32) : VersionVector :=
  match v.find n with
  | some _ => v.update n f
  | none => ⟨v.entries ++ [⟨n,f 0⟩]⟩

theorem increment_eq (v : VersionVector) (n : UInt16) : (v.increment n).2 = v.change n (· + 1) := by
  rw [increment,change]
  cases v.find n with
  | none => rfl
  | some e => rfl

theorem set_eq (v : VersionVector) (n : UInt16) (seq : UInt32) : v.set n seq = v.change n (fun _ => seq) := rfl

theorem mergeEntry_eq (v : VersionVector) (e : VersionEntry) : v.mergeEntry e = v.change e.nodeId (max · e.sequence) := by
  have first : max 0 e.sequence = e.sequence := by
    rw [← UInt32.toNat_inj,UInt32.toNat_max,UInt32.toNat_zero,Nat.zero_max]
  unfold mergeEntry change
  cases v.find e.nodeId with
  | none => exact congrArg (fun sequence => (⟨v.entries ++ [⟨e.nodeId,sequence⟩]⟩ : VersionVector)) first.symm
  | some found => rfl

theorem nodes_update (v : VersionVector) (n : UInt16) (f : UInt32 → UInt32) : (v.update n f).nodes = v.nodes :=
  Keyed.map_modify VersionEntry.nodeId (f := fun e => { e with sequence := f e.sequence }) (fun _ => rfl) v.entries n

theorem get_update {v : VersionVector} {n : UInt16} {e : VersionEntry} (found : v.find n = some e) (f : UInt32 → UInt32)
    (m : UInt16) : (v.update n f).get m = if m = n then f (v.get n) else v.get m := by
  have lookup : (v.update n f).find m =
      if m = n then (v.find m).map (fun e => { e with sequence := f e.sequence }) else v.find m :=
    Keyed.find_modify VersionEntry.nodeId (f := fun e => { e with sequence := f e.sequence }) (fun _ => rfl) v.entries n m
  rw [get,lookup]
  by_cases same : m = n
  · rw [if_pos same,if_pos same,same,found,get,found]
    rfl
  · rw [if_neg same,if_neg same,get]

theorem get_append {v : VersionVector} {n : UInt16} (absent : n ∉ v.nodes) (seq : UInt32) (m : UInt16) :
    get ⟨v.entries ++ [⟨n,seq⟩]⟩ m = if m = n then seq else v.get m := by
  have lookup : find ⟨v.entries ++ [⟨n,seq⟩]⟩ m = if n = m then some ⟨n,seq⟩ else v.find m :=
    Keyed.find_append VersionEntry.nodeId absent m
  rw [get,lookup]
  by_cases same : m = n
  · rw [if_pos same,if_pos same.symm]
  · rw [if_neg same,if_neg (Ne.symm same),get]

theorem mem_nodes_of_find {v : VersionVector} {n : UInt16} {e : VersionEntry} (found : v.find n = some e) :
    n ∈ v.nodes := by
  by_contra absent
  rw [(find_eq_none_iff v n).mpr absent] at found
  cases found

/-- Only the node's own level changes. -/
theorem levels_change (v : VersionVector) (n : UInt16) (f : UInt32 → UInt32) (m : UInt16) :
    (v.change n f).levels m = if m = n then (f (v.get n)).toNat else v.levels m := by
  have read : (v.change n f).get m = if m = n then f (v.get n) else v.get m := by
    rw [change]
    cases found : v.find n with
    | none =>
      have absent := (find_eq_none_iff v n).mp found
      rw [get_of_not_mem absent]
      exact get_append absent (f 0) m
    | some e => exact get_update found f m
  rw [levels,read,apply_ite UInt32.toNat]
  rfl

theorem nodes_change (v : VersionVector) (n : UInt16) (f : UInt32 → UInt32) :
    (v.change n f).nodes = if n ∈ v.nodes then v.nodes else v.nodes ++ [n] := by
  rw [change]
  cases found : v.find n with
  | none =>
    rw [if_neg ((find_eq_none_iff v n).mp found)]
    exact List.map_append
  | some e =>
    rw [if_pos (mem_nodes_of_find found)]
    exact nodes_update v n f

/-- No change adds a second entry for a node, or removes one. -/
theorem unique_change (v : VersionVector) (n : UInt16) (f : UInt32 → UInt32) : (v.change n f).Unique ↔ v.Unique := by
  rw [Unique,nodes_change]
  by_cases present : n ∈ v.nodes
  · rw [if_pos present,Unique]
  · rw [if_neg present]
    refine ⟨fun unique => (List.nodup_append.mp unique).1,fun unique => ?_⟩
    exact List.Nodup.append unique (List.nodup_singleton n) (List.disjoint_singleton.mpr present)

/-! ### The order of the levels -/

theorem levels_cons (e : VersionEntry) (l : List VersionEntry) (n : UInt16) :
    levels ⟨e :: l⟩ n = if e.nodeId = n then e.sequence.toNat else levels ⟨l⟩ n := by
  rw [levels,get_cons,apply_ite UInt32.toNat]
  rfl

theorem dominates_iff_le {v other : VersionVector} (unique : other.Unique) :
    v.dominates other = true ↔ other.levels ≤ v.levels := by
  rw [dominates_iff]
  constructor
  · intro above n
    rcases get_cases other n with none | ⟨e,member,rfl,found⟩
    · rw [levels,none]
      exact Nat.zero_le _
    · rw [levels,found]
      exact UInt32.le_iff_toNat_le.mp (above e member)
  · intro le e member
    rw [← get_of_mem unique member]
    exact UInt32.le_iff_toNat_le.mpr (le e.nodeId)

theorem equals_iff {v other : VersionVector} (unique : v.Unique) (unique' : other.Unique) :
    v.equals other = true ↔ v.levels = other.levels := by
  have entries : v.equals other = true ↔
      (∀ e ∈ v.entries, other.get e.nodeId = e.sequence) ∧ ∀ e ∈ other.entries, v.get e.nodeId = e.sequence := by
    simp [equals,List.all_eq_true]
  rw [entries]
  constructor
  · rintro ⟨left,right⟩
    funext n
    rcases get_cases v n with none | ⟨e,member,rfl,found⟩
    · rcases get_cases other n with none' | ⟨e,member,rfl,found⟩
      · rw [levels,levels,none,none']
      · rw [levels,levels,found,right e member]
    · rw [levels,levels,found,left e member]
  · intro same
    have level : ∀ n, v.get n = other.get n := fun n => UInt32.toNat_inj.mp (congrFun same n)
    refine ⟨fun e member => ?_,fun e member => ?_⟩
    · rw [← level,get_of_mem unique member]
    · rw [level,get_of_mem unique' member]

theorem levels_mergeEntry (v : VersionVector) (e : VersionEntry) (n : UInt16) :
    (v.mergeEntry e).levels n = if n = e.nodeId then max (v.levels n) e.sequence.toNat else v.levels n := by
  rw [mergeEntry_eq,levels_change]
  by_cases same : n = e.nodeId
  · rw [if_pos same,if_pos same,UInt32.toNat_max,same]
    rfl
  · rw [if_neg same,if_neg same]

theorem unique_merge (v other : VersionVector) : (v.merge other).Unique ↔ v.Unique := by
  obtain ⟨l⟩ := other
  show (l.foldl mergeEntry v).Unique ↔ v.Unique
  induction l generalizing v with
  | nil => exact Iff.rfl
  | cons e l ih =>
    refine (ih (v.mergeEntry e)).trans ?_
    rw [mergeEntry_eq]
    exact unique_change v e.nodeId _

/-- A merge takes the larger level of each node. -/
theorem levels_merge (v : VersionVector) {other : VersionVector} (unique : other.Unique) :
    (v.merge other).levels = v.levels ⊔ other.levels := by
  obtain ⟨l⟩ := other
  show (l.foldl mergeEntry v).levels = v.levels ⊔ levels ⟨l⟩
  induction l generalizing v with
  | nil =>
    funext n
    exact (Nat.max_zero _).symm
  | cons e l ih =>
    obtain ⟨absent,rest⟩ := List.nodup_cons.mp unique
    rw [List.foldl_cons,ih (v.mergeEntry e) rest]
    funext n
    show max ((v.mergeEntry e).levels n) (levels ⟨l⟩ n) = max (v.levels n) (levels ⟨e :: l⟩ n)
    rw [levels_mergeEntry,levels_cons]
    by_cases same : n = e.nodeId
    · have none : levels ⟨l⟩ n = 0 := by rw [levels,get_of_not_mem (same ▸ absent),UInt32.toNat_zero]
      rw [if_pos same,if_pos same.symm,none,Nat.max_zero]
    · rw [if_neg same,if_neg (Ne.symm same)]

end VersionVector

namespace VersionOrder
open VersionVector

/-- A way to build a vector. -/
inductive Build where
  | empty
  | increment (of : Build) (nodeId : UInt16)
  | set (of : Build) (nodeId : UInt16) (seq : UInt32)
  | merge (of other : Build)
  deriving DecidableEq, Repr

def Build.vector : Build → VersionVector
  | .empty => {}
  | .increment of nodeId => (of.vector.increment nodeId).2
  | .set of nodeId seq => of.vector.set nodeId seq
  | .merge of other => of.vector.merge other.vector

theorem unique_vector (x : Build) : x.vector.Unique := by
  induction x with
  | empty => exact List.nodup_nil
  | increment of nodeId ih =>
    rw [Build.vector,increment_eq]
    exact (unique_change _ nodeId _).mpr ih
  | set of nodeId seq ih =>
    rw [Build.vector,set_eq]
    exact (unique_change _ nodeId _).mpr ih
  | merge of other ih _ => exact (unique_merge _ _).mpr ih

theorem dominates_iff_levels (x y : Build) : x.vector.dominates y.vector = true ↔ y.vector.levels ≤ x.vector.levels :=
  dominates_iff_le (unique_vector y)

theorem equals_iff_levels (x y : Build) : x.vector.equals y.vector = true ↔ x.vector.levels = y.vector.levels :=
  equals_iff (unique_vector x) (unique_vector y)

theorem levels_vector_merge (x y : Build) : (Build.merge x y).vector.levels = x.vector.levels ⊔ y.vector.levels :=
  levels_merge x.vector (unique_vector y)

theorem equals_iff_dominates (x y : Build) :
    x.vector.equals y.vector = true ↔ x.vector.dominates y.vector = true ∧ y.vector.dominates x.vector = true := by
  rw [equals_iff_levels,dominates_iff_levels,dominates_iff_levels,and_comm]
  exact le_antisymm_iff

/-- Two vectors are equal, or one is less than the other, or they are concurrent. -/
theorem one_comparison (x y : Build) :
    [x.vector.equals y.vector,x.vector.lessThan y.vector,y.vector.lessThan x.vector,
      x.vector.concurrentWith y.vector].count true = 1 := by
  have equal := equals_iff_dominates x y
  have equal' := equals_iff_dominates y x
  rw [lessThan,lessThan,concurrentWith]
  revert equal equal'
  cases x.vector.dominates y.vector <;> cases y.vector.dominates x.vector <;>
    cases x.vector.equals y.vector <;> cases y.vector.equals x.vector <;> simp

/-- What increments, changes and merges build is ordered by dominance up to `==`, any
    two of them compare in exactly one way, and a merge is their least upper bound. -/
theorem versions_semilattice (x y z : Build) :
    x.vector.dominates x.vector = true ∧
      (x.vector.dominates y.vector = true → y.vector.dominates z.vector = true → x.vector.dominates z.vector = true) ∧
      (x.vector.equals y.vector = true ↔ x.vector.dominates y.vector = true ∧ y.vector.dominates x.vector = true) ∧
      [x.vector.equals y.vector,x.vector.lessThan y.vector,y.vector.lessThan x.vector,
        x.vector.concurrentWith y.vector].count true = 1 ∧
      ((x.vector.merge y.vector).dominates x.vector = true ∧ (x.vector.merge y.vector).dominates y.vector = true ∧
        (z.vector.dominates x.vector = true → z.vector.dominates y.vector = true →
          z.vector.dominates (x.vector.merge y.vector) = true)) ∧
      (x.vector.merge y.vector).equals (y.vector.merge x.vector) = true ∧
      ((x.vector.merge y.vector).merge z.vector).equals (x.vector.merge (y.vector.merge z.vector)) = true ∧
      (x.vector.merge x.vector).equals x.vector = true := by
  refine ⟨?_,VersionVector.dominates_trans,equals_iff_dominates x y,one_comparison x y,⟨?_,?_,?_⟩,?_,?_,?_⟩
  · exact (dominates_iff_levels x x).mpr le_rfl
  · refine (dominates_iff_levels (.merge x y) x).mpr ?_
    rw [levels_vector_merge]
    exact le_sup_left
  · refine (dominates_iff_levels (.merge x y) y).mpr ?_
    rw [levels_vector_merge]
    exact le_sup_right
  · intro left right
    refine (dominates_iff_levels z (.merge x y)).mpr ?_
    rw [levels_vector_merge]
    exact sup_le ((dominates_iff_levels z x).mp left) ((dominates_iff_levels z y).mp right)
  · refine (equals_iff_levels (.merge x y) (.merge y x)).mpr ?_
    rw [levels_vector_merge,levels_vector_merge,sup_comm]
  · refine (equals_iff_levels (.merge (.merge x y) z) (.merge x (.merge y z))).mpr ?_
    simp only [levels_vector_merge,sup_assoc]
  · refine (equals_iff_levels (.merge x x) x).mpr ?_
    rw [levels_vector_merge,sup_idem]

end VersionOrder
end Rom
