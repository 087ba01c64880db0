import Rom.LwwRegister
import Rom.Counters
import Rom.OrSet
import Rom.StatePath
import Rom.VersionVector
import Rom.Frames
import Rom.Crypto

/-!
The registry of declared regions (`state_registry.h`, `state_registry.cpp`): each
region has a path and a replicated value of its type, and is found by the hash of
its path. Deltas and snapshots are merged into the region of their hash and touch
no other (`applyDelta_regions`), and what is collected of a region depends on it
alone (`collectDeltas_region`).
-/
namespace Rom
open Std

/-! ### Maps as lists -/

/-- In a map each key is listed once. -/
theorem toList_filter_key {α : Type} (m : ExtTreeMap UInt32 α) (hash : UInt32) :
    m.toList.filter (fun e => e.1 == hash) = (m[hash]?.map (fun b => (hash,b))).toList := by
  have once : ∀ l : List (UInt32 × α), l.Pairwise (fun a b => ¬ compare a.1 b.1 = .eq) →
      ∀ b, (hash,b) ∈ l → l.filter (fun e => e.1 == hash) = [(hash,b)] := by
    intro l distinct b member
    induction l with
    | nil => cases member
    | cons e l ih =>
      rw [List.pairwise_cons] at distinct
      rcases List.mem_cons.mp member with rfl | later
      · have none : l.filter (fun e => e.1 == hash) = [] := by
          rw [List.filter_eq_nil_iff]
          intro e listed same
          rw [beq_iff_eq] at same
          exact distinct.1 e listed (by rw [same]; exact ReflCmp.compare_self)
        rw [List.filter_cons_of_pos (by simp),none]
      · have other : e.1 ≠ hash := by
          intro same
          exact distinct.1 _ later (by rw [same]; exact ReflCmp.compare_self)
        rw [List.filter_cons_of_neg (by simpa using other)]
        exact ih distinct.2 later
  cases found : m[hash]? with
  | some b => exact once _ ExtTreeMap.distinct_keys_toList b (ExtTreeMap.mem_toList_iff_getElem?_eq_some.mpr found)
  | none =>
    rw [Option.map_none,Option.toList_none,List.filter_eq_nil_iff]
    rintro ⟨key,b⟩ listed same
    rw [beq_iff_eq] at same
    change key = hash at same
    rw [ExtTreeMap.mem_toList_iff_getElem?_eq_some,same,found] at listed
    cases listed

/-- What is listed for a key comes from what has that key. -/
theorem filter_flatMap_key {α β : Type} (f : UInt32 × α → List β) (key : β → UInt32) (own : ∀ e, ∀ d ∈ f e, key d = e.1)
    (l : List (UInt32 × α)) (hash : UInt32) :
    (l.flatMap f).filter (fun d => key d == hash) = (l.filter (fun e => e.1 == hash)).flatMap f := by
  induction l with
  | nil => rfl
  | cons e l ih =>
    rw [List.flatMap_cons,List.filter_append,ih]
    by_cases same : e.1 = hash
    · have all : (f e).filter (fun d => key d == hash) = f e := by
        rw [List.filter_eq_self]
        exact fun d listed => beq_iff_eq.mpr ((own e d listed).trans same)
      rw [all,List.filter_cons_of_pos (by simpa using same),List.flatMap_cons]
    · have none : (f e).filter (fun d => key d == hash) = [] := by
        rw [List.filter_eq_nil_iff]
        exact fun d listed here => same ((own e d listed).symm.trans (beq_iff_eq.mp here))
      rw [none,List.filter_cons_of_neg (by simpa using same),List.nil_append]

/-! ### Regions -/

/-- A value behind the interface `Crdt`. -/
inductive Crdt where
  | lwwRegister (r : LwwRegister)
  | gCounter (c : GCounter)
  | pnCounter (c : PnCounter)
  | orSet (s : OrSet)

namespace Crdt

/-- The value after the merge, and whether the merge reports a change. -/
def merge : Crdt → Bytes → Crdt × Bool
  | lwwRegister r, data => (.lwwRegister (r.merge data).1,(r.merge data).2)
  | gCounter c, data => (.gCounter (c.merge data).1,(c.merge data).2)
  | pnCounter c, data => (.pnCounter (c.merge data).1,(c.merge data).2)
  | orSet s, data => (.orSet (s.merge data).1,(s.merge data).2)

def snapshot : Crdt → Bytes
  | lwwRegister r => r.snapshot
  | gCounter c => c.snapshot
  | pnCounter c => c.snapshot
  | orSet s => s.snapshot

/-- The bytes to send, empty when there is nothing new, and the value after. -/
def delta : Crdt → Bytes × Crdt
  | lwwRegister r => (r.delta.1,.lwwRegister r.delta.2)
  | gCounter c => (c.delta.1,.gCounter c.delta.2)
  | pnCounter c => (c.delta.1,.pnCounter c.delta.2)
  | orSet s => (s.delta.1,.orSet s.delta.2)

def hasPendingDelta : Crdt → Bool
  | lwwRegister r => r.hasPendingDelta
  | gCounter c => c.hasPendingDelta
  | pnCounter c => c.hasPendingDelta
  | orSet s => s.hasPendingDelta

end Crdt

structure StateRegion where
  path : StatePath
  crdtType : CrdtType
  reliability : Reliability
  crdt : Crdt
  version : VersionVector := {}

/-- The regions by the hash of their path. The update callback is kept as the
    calls made to it; `notifies` says whether one is set. -/
structure StateRegistry where
  nodeId : UInt16
  regions : ExtTreeMap UInt32 StateRegion := ∅
  notifies : Bool := false
  updates : List (StatePath × Bytes) := []

/-- What a delta says and how it is to be sent. -/
structure PendingDelta where
  pathHash : UInt32
  crdtType : CrdtType
  reliability : Reliability
  data : Bytes
  deriving DecidableEq, Repr

namespace StateRegistry

def new (nodeId : UInt16) : StateRegistry := { nodeId := nodeId }

def createCrdt (s : StateRegistry) : CrdtType → Option Crdt
  | .lwwRegister => some (.lwwRegister (.new s.nodeId))
  | .gCounter => some (.gCounter (.new s.nodeId))
  | .pnCounter => some (.pnCounter (.new s.nodeId))
  | .orSet => some (.orSet (.new s.nodeId))
  | _ => none

/-- The registry with the region, and whether it was declared. -/
def declare (P : Primitives) (s : StateRegistry) (path : StatePath) (type : CrdtType) (rel : Reliability) :
    StateRegistry × Bool :=
  let hash := P.xxhash32 path.path
  if s.regions.contains hash then (s,false)
  else
    match s.createCrdt type with
    | none => (s,false)
    | some crdt =>
      let region : StateRegion := { path := path, crdtType := type, reliability := rel, crdt := crdt }
      ({ s with regions := s.regions.insert hash region },true)

def get (s : StateRegistry) (pathHash : UInt32) : Option StateRegion := s.regions[pathHash]?

/-- The region at the hash of a path, whatever path it was declared for. -/
def getPath (P : Primitives) (s : StateRegistry) (path : StatePath) : Option StateRegion := s.get (P.xxhash32 path.path)

/-- The registry after a region in it has changed. -/
def put (s : StateRegistry) (pathHash : UInt32) (region : StateRegion) : StateRegistry :=
  { s with regions := s.regions.insert pathHash region }

/-- The registry after merging the bytes into their region, and whether the merge
    reports a change. -/
def applyDelta (s : StateRegistry) (pathHash : UInt32) (data : Bytes) : StateRegistry × Bool :=
  match s.get pathHash with
  | none => (s,false)
  | some region =>
    let (crdt,changed) := region.crdt.merge data
    let updates := if changed && s.notifies then s.updates ++ [(region.path,crdt.snapshot)] else s.updates
    ({ s with regions := s.regions.insert pathHash { region with crdt := crdt }, updates := updates },changed)

def applySnapshot (s : StateRegistry) (pathHash : UInt32) (data : Bytes) : StateRegistry × Bool :=
  s.applyDelta pathHash data

/-- One region of `collectDeltas`. -/
def collectRegion (st : ExtTreeMap UInt32 StateRegion × List PendingDelta) (e : UInt32 × StateRegion) :
    ExtTreeMap UInt32 StateRegion × List PendingDelta :=
  if e.2.crdt.hasPendingDelta then
    let (d,crdt) := e.2.crdt.delta
    (st.1.insert e.1 { e.2 with crdt := crdt },
      if d.isEmpty then st.2 else st.2 ++ [⟨e.1,e.2.crdtType,e.2.reliability,d⟩])
  else st

/-- The deltas of all regions with something new, and the registry after. -/
def collectDeltas (s : StateRegistry) : List PendingDelta × StateRegistry :=
  let (regions,deltas) := s.regions.toList.foldl collectRegion (s.regions,[])
  (deltas,{ s with regions := regions })

/-- A region after its delta is collected. -/
def collected (region : StateRegion) : StateRegion :=
  if region.crdt.hasPendingDelta then { region with crdt := region.crdt.delta.2 } else region

/-- What is collected of a region. -/
def handed (e : UInt32 × StateRegion) : List PendingDelta :=
  if e.2.crdt.hasPendingDelta && !e.2.crdt.delta.1.isEmpty then
    [⟨e.1,e.2.crdtType,e.2.reliability,e.2.crdt.delta.1⟩]
  else []

theorem collectRegion_deltas (st : ExtTreeMap UInt32 StateRegion × List PendingDelta) (e : UInt32 × StateRegion) :
    (collectRegion st e).2 = st.2 ++ handed e := by
  rw [collectRegion,handed]
  cases e.2.crdt.hasPendingDelta with
  | false => simp
  | true =>
    cases none : e.2.crdt.delta.1.isEmpty with
    | true => simp [none]
    | false => simp [none]

theorem collectRegion_own (st : ExtTreeMap UInt32 StateRegion × List PendingDelta) (e : UInt32 × StateRegion)
    (found : st.1[e.1]? = some e.2) : (collectRegion st e).1[e.1]? = some (collected e.2) := by
  rw [collectRegion,collected]
  cases e.2.crdt.hasPendingDelta with
  | false => exact found
  | true => simp

theorem collectRegion_other (st : ExtTreeMap UInt32 StateRegion × List PendingDelta) (e : UInt32 × StateRegion)
    {hash : UInt32} (other : e.1 ≠ hash) : (collectRegion st e).1[hash]? = st.1[hash]? := by
  rw [collectRegion]
  cases e.2.crdt.hasPendingDelta with
  | false => rfl
  | true => simp [ExtTreeMap.getElem?_insert,other]

theorem foldl_collectRegion_other (l : List (UInt32 × StateRegion)) (st : ExtTreeMap UInt32 StateRegion × List PendingDelta)
    {hash : UInt32} (others : ∀ e ∈ l, e.1 ≠ hash) : (l.foldl collectRegion st).1[hash]? = st.1[hash]? := by
  induction l generalizing st with
  | nil => rfl
  | cons e l ih =>
    rw [List.foldl_cons,ih _ (fun e member => others e (List.mem_cons_of_mem _ member)),
      collectRegion_other st e (others e List.mem_cons_self)]

theorem foldl_collectRegion_own {l : List (UInt32 × StateRegion)} (distinct : l.Pairwise (fun a b => a.1 ≠ b.1))
    (st : ExtTreeMap UInt32 StateRegion × List PendingDelta) {e : UInt32 × StateRegion} (member : e ∈ l)
    (found : st.1[e.1]? = some e.2) : (l.foldl collectRegion st).1[e.1]? = some (collected e.2) := by
  induction l generalizing st with
  | nil => cases member
  | cons first l ih =>
    obtain ⟨apart,distinct⟩ := List.pairwise_cons.mp distinct
    rw [List.foldl_cons]
    rcases List.mem_cons.mp member with rfl | later
    · rw [foldl_collectRegion_other l _ (fun other member => (apart other member).symm),collectRegion_own st e found]
    · refine ih distinct _ later ?_
      rw [collectRegion_other st first (apart e later),found]

theorem pathHash_handed {e : UInt32 × StateRegion} {d : PendingDelta} (listed : d ∈ handed e) : d.pathHash = e.1 := by
  rw [handed] at listed
  split at listed
  · rw [List.mem_singleton.mp listed]
  · cases listed

/-- What is collected of one region, and what becomes of it, does not depend on
    the others. -/
theorem collectDeltas_region (s : StateRegistry) {hash : UInt32} {region : StateRegion}
    (found : s.get hash = some region) :
    s.collectDeltas.2.get hash = some (collected region) ∧
      s.collectDeltas.1.filter (fun d => d.pathHash == hash) = handed (hash,region) := by
  have distinct : s.regions.toList.Pairwise (fun a b => a.1 ≠ b.1) := by
    refine ExtTreeMap.distinct_keys_toList.imp ?_
    intro a b apart same
    exact apart (LawfulEqCmp.compare_eq_iff_eq.mpr same)
  have member : (hash,region) ∈ s.regions.toList := ExtTreeMap.mem_toList_iff_getElem?_eq_some.mpr found
  have deltas : ∀ (l : List (UInt32 × StateRegion)) (st : ExtTreeMap UInt32 StateRegion × List PendingDelta),
      (l.foldl collectRegion st).2 = st.2 ++ l.flatMap handed := by
    intro l
    induction l with
    | nil => simp
    | cons e l ih =>
      intro st
      rw [List.foldl_cons,ih,collectRegion_deltas,List.flatMap_cons,List.append_assoc]
  constructor
  · exact foldl_collectRegion_own distinct (s.regions,[]) member found
  · show (List.foldl collectRegion (s.regions,[]) _).2.filter _ = _
    rw [deltas,List.nil_append,filter_flatMap_key handed PendingDelta.pathHash (fun _ _ => pathHash_handed),
      toList_filter_key,show s.regions[hash]? = some region from found]
    exact List.append_nil _

/-- Nothing is collected where there is no region. -/
theorem collectDeltas_none (s : StateRegistry) {hash : UInt32} (absent : s.get hash = none) :
    s.collectDeltas.2.get hash = none := by
  have others : ∀ e ∈ s.regions.toList, e.1 ≠ hash := by
    rintro e listed rfl
    have found : s.get e.1 = some e.2 := ExtTreeMap.mem_toList_iff_getElem?_eq_some.mp listed
    rw [found] at absent
    cases absent
  exact (foldl_collectRegion_other s.regions.toList (s.regions,[]) others).trans absent

/-- A merge changes the value of its own region, if there is one, and nothing
    else. -/
theorem applyDelta_regions (s : StateRegistry) (pathHash hash : UInt32) (data : Bytes) :
    (s.applyDelta pathHash data).1.regions[hash]? =
      if pathHash = hash then s.regions[hash]?.map (fun region => { region with crdt := (region.crdt.merge data).1 })
      else s.regions[hash]? := by
  simp only [applyDelta,get]
  cases found : s.regions[pathHash]? with
  | none =>
    by_cases same : pathHash = hash
    · subst same
      simp [found]
    · simp [same]
  | some region =>
    by_cases same : pathHash = hash
    · subst same
      simp [found]
    · simp [ExtTreeMap.getElem?_insert,same]

end StateRegistry
end Rom
