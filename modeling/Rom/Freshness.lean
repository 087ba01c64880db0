import Rom.Bytes
import Std.Data.ExtTreeMap

/-!
Deadlines and the outbox of deltas (`freshness.h`, `freshness.cpp`). A delta may
carry an age beyond which it is dropped. Of the entries for a path, coalescing
keeps the last one (`forPath_coalesce`).
-/
namespace Rom
open Std

structure FreshnessStamp where
  createdUs : UInt32
  /-- 0 for no deadline. -/
  deadlineUs : UInt32
  deriving DecidableEq, Repr

namespace FreshnessStamp

def isFresh (s : FreshnessStamp) (nowUs : UInt32) : Bool :=
  if s.deadlineUs == 0 then true else nowUs - s.createdUs ≤ s.deadlineUs

end FreshnessStamp

structure OutboxEntry where
  pathHash : UInt32
  crdtType : UInt8
  reliability : UInt8
  freshness : FreshnessStamp
  data : Bytes
  targetSubId : UInt32
  targetConnId : UInt16
  deriving DecidableEq, Repr

structure DeltaOutbox where
  entries : List OutboxEntry := []
  deriving DecidableEq, Repr

namespace DeltaOutbox

def push (o : DeltaOutbox) (entry : OutboxEntry) : DeltaOutbox := { o with entries := o.entries ++ [entry] }

/-- The first fresh entry, and the outbox without it and without the stale ones
    before it. -/
def pop (o : DeltaOutbox) (nowUs : UInt32) : Option OutboxEntry × DeltaOutbox :=
  match o.entries.dropWhile (fun e => !e.freshness.isFresh nowUs) with
  | [] => (none,⟨[]⟩)
  | front :: entries => (some front,⟨entries⟩)

/-- The outbox without stale entries, and how many were dropped. -/
def gc (o : DeltaOutbox) (nowUs : UInt32) : DeltaOutbox × Nat :=
  let kept := o.entries.filter (fun e => e.freshness.isFresh nowUs)
  (⟨kept⟩,o.entries.length - kept.length)

/-- The index of the last entry of each path, found by walking backwards. -/
def latest (entries : List (OutboxEntry × Nat)) : ExtTreeMap UInt32 Nat :=
  entries.foldr (fun e latest => latest.insertIfNew e.1.pathHash e.2) ∅

/-- The outbox with the last entry of each path, and how many were dropped. -/
def coalesce (o : DeltaOutbox) : DeltaOutbox × Nat :=
  if o.entries.length ≤ 1 then (o,0)
  else
    let latest := latest o.entries.zipIdx
    let kept := (o.entries.zipIdx.filter (fun e => latest[e.1.pathHash]? == some e.2)).map Prod.fst
    (⟨kept⟩,o.entries.length - kept.length)

/-- What the outbox holds for a path. -/
def forPath (hash : UInt32) (o : DeltaOutbox) : List OutboxEntry := o.entries.filter (fun e => e.pathHash == hash)

theorem latest_cons (e : OutboxEntry × Nat) (l : List (OutboxEntry × Nat)) (hash : UInt32) :
    (latest (e :: l))[hash]? = (latest l)[hash]?.or (if e.1.pathHash = hash then some e.2 else none) := by
  show ((latest l).insertIfNew e.1.pathHash e.2)[hash]? = _
  rw [ExtTreeMap.getElem?_insertIfNew]
  by_cases same : e.1.pathHash = hash
  · rw [if_pos same,same]
    cases found : (latest l)[hash]? with
    | none =>
      have absent : hash ∉ latest l := by
        rw [ExtTreeMap.mem_iff_isSome_getElem?,found]
        simp
      simp [absent]
    | some i =>
      have present : hash ∈ latest l := by
        rw [ExtTreeMap.mem_iff_isSome_getElem?,found]
        rfl
      simp [present]
  · simp [same]

/-- The index is at least the first one. -/
theorem le_latest {l : List OutboxEntry} {k i : Nat} {hash : UInt32}
    (found : (latest (l.zipIdx k))[hash]? = some i) : k ≤ i := by
  induction l generalizing k with
  | nil => simp [latest] at found
  | cons e l ih =>
    rw [List.zipIdx_cons,latest_cons] at found
    cases later : (latest (l.zipIdx (k+1)))[hash]? with
    | some j =>
      rw [later] at found
      cases found
      exact Nat.le_of_succ_le (ih later)
    | none =>
      rw [later,Option.none_or] at found
      split at found
      · cases found
        exact Nat.le_refl k
      · cases found

theorem latest_none {l : List OutboxEntry} {k : Nat} {hash : UInt32} :
    (latest (l.zipIdx k))[hash]? = none ↔ l.filter (fun e => e.pathHash == hash) = [] := by
  induction l generalizing k with
  | nil => simp [latest]
  | cons e l ih =>
    rw [List.zipIdx_cons,latest_cons,Option.or_eq_none_iff,ih]
    by_cases same : e.pathHash = hash
    · simp [same]
    · simp [same]

theorem filter_kept_cons (m : ExtTreeMap UInt32 Nat) (e : OutboxEntry × Nat) (l : List (OutboxEntry × Nat))
    (hash : UInt32) :
    (((e :: l).filter (fun e => m[e.1.pathHash]? == some e.2)).map Prod.fst).filter (fun e => e.pathHash == hash) =
      (if e.1.pathHash = hash ∧ m[hash]? = some e.2 then [e.1] else []) ++
        ((l.filter (fun e => m[e.1.pathHash]? == some e.2)).map Prod.fst).filter (fun e => e.pathHash == hash) := by
  by_cases same : e.1.pathHash = hash
  · by_cases kept : m[hash]? = some e.2
    · simp [same,kept]
    · simp [same,kept]
  · by_cases kept : m[e.1.pathHash]? = some e.2
    · simp [same,kept]
    · simp [same,kept]

/-- Keeping the entries that are the latest of their path keeps the last one of
    each path. -/
theorem filter_latest (l : List OutboxEntry) (k : Nat) (m : ExtTreeMap UInt32 Nat) (hash : UInt32)
    (agree : m[hash]? = (latest (l.zipIdx k))[hash]?) :
    (((l.zipIdx k).filter (fun e => m[e.1.pathHash]? == some e.2)).map Prod.fst).filter (fun e => e.pathHash == hash) =
      (l.filter (fun e => e.pathHash == hash)).getLast?.toList := by
  induction l generalizing k with
  | nil => rfl
  | cons e l ih =>
    rw [List.zipIdx_cons,latest_cons] at agree
    rw [List.zipIdx_cons,filter_kept_cons,List.filter_cons]
    cases later : (latest (l.zipIdx (k+1)))[hash]? with
    | some i =>
      rw [later,Option.some_or] at agree
      have more : l.filter (fun e => e.pathHash == hash) ≠ [] := by
        intro none
        rw [latest_none.mpr none] at later
        cases later
      have newer : k < i := le_latest later
      have dropped : ¬ (e.pathHash = hash ∧ m[hash]? = some k) := by
        rintro ⟨_,here⟩
        rw [agree,Option.some.injEq] at here
        omega
      rw [if_neg dropped,ih (k+1) (agree.trans later.symm),List.nil_append]
      split
      · rw [List.getLast?_cons_of_ne_nil more]
      · rfl
    | none =>
      rw [later,Option.none_or] at agree
      have noMore : l.filter (fun e => e.pathHash == hash) = [] := latest_none.mp later
      have rest : (((l.zipIdx (k+1)).filter (fun e => m[e.1.pathHash]? == some e.2)).map Prod.fst).filter
          (fun e => e.pathHash == hash) = [] := by
        rw [List.filter_eq_nil_iff] at noMore ⊢
        intro e listed
        obtain ⟨⟨e',i⟩,indexed,rfl⟩ := List.mem_map.mp listed
        exact noMore _ (List.fst_mem_of_mem_zipIdx (List.mem_filter.mp indexed).1)
      rw [rest,noMore,agree]
      by_cases same : e.pathHash = hash
      · simp [same]
      · simp [same]

/-- Coalescing keeps the last entry of a path and no other of it. -/
theorem forPath_coalesce (o : DeltaOutbox) (hash : UInt32) :
    forPath hash o.coalesce.1 = (forPath hash o).getLast?.toList := by
  rw [coalesce]
  split
  · next few =>
    obtain ⟨entries⟩ := o
    match entries, few with
    | [], _ => rfl
    | [e], _ =>
      rw [forPath]
      by_cases same : e.pathHash = hash
      · simp [same]
      · simp [same]
  · exact filter_latest o.entries 0 _ hash rfl

end DeltaOutbox
end Rom
