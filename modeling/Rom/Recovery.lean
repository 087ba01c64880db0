import Rom.VersionVector
import Rom.Registry
import Rom.Runs

/-!
The event log and recovery from it (`event_log.h`, `event_log.cpp`, `recovery.h`,
`recovery.cpp`). A log keeps the deltas and snapshots of all paths with their
versions; compacting a path drops the deltas that a version dominates. A client
that reconnects says which version it has of which path, and the plan lists what
it has to be sent. As long as a path is compacted only below a snapshot in the
log, every delta ever logged is in the log or under a snapshot there
(`kept_run`), so no plan misses one (`recovery_complete`).
-/
namespace Rom
open Std Rom.Runs

structure LogEntry where
  sequence : UInt64
  pathHash : UInt32
  crdtType : CrdtType
  version : VersionVector
  data : Bytes
  isSnapshot : Bool
  timestampUs : UInt32
  deriving DecidableEq, Repr

structure EventLog where
  nextSeq : UInt64 := 1
  entries : List LogEntry := []

namespace EventLog

/-- The log with the entry under the next sequence number, and the entry. -/
def append (log : EventLog) (entry : LogEntry) : EventLog × LogEntry :=
  let entry := { entry with sequence := log.nextSeq }
  (⟨log.nextSeq + 1,log.entries ++ [entry]⟩,entry)

def appendDelta (log : EventLog) (pathHash : UInt32) (crdtType : CrdtType) (version : VersionVector) (data : Bytes)
    (timestampUs : UInt32) : EventLog × LogEntry :=
  log.append ⟨0,pathHash,crdtType,version,data,false,timestampUs⟩

def appendSnapshot (log : EventLog) (pathHash : UInt32) (crdtType : CrdtType) (version : VersionVector) (data : Bytes)
    (timestampUs : UInt32) : EventLog × LogEntry :=
  log.append ⟨0,pathHash,crdtType,version,data,true,timestampUs⟩

/-- The entries of a path whose version holds something new. -/
def entriesSince (log : EventLog) (pathHash : UInt32) (since : VersionVector) : List LogEntry :=
  log.entries.filter (fun entry => entry.pathHash == pathHash && !since.dominates entry.version)

/-- The log without the deltas of the path that the version dominates, and how
    many those were. -/
def compact (log : EventLog) (pathHash : UInt32) (snapshotVersion : VersionVector) : EventLog × Nat :=
  let kept := log.entries.filter (fun entry =>
    if entry.pathHash = pathHash then entry.isSnapshot || !snapshotVersion.dominates entry.version else true)
  ({ log with entries := kept },log.entries.length - kept.length)

theorem mem_compact (log : EventLog) (pathHash : UInt32) (snapshotVersion : VersionVector) (entry : LogEntry) :
    entry ∈ (log.compact pathHash snapshotVersion).1.entries ↔ entry ∈ log.entries ∧
      (entry.pathHash = pathHash → entry.isSnapshot = true ∨ snapshotVersion.dominates entry.version = false) := by
  rw [compact,List.mem_filter]
  by_cases here : entry.pathHash = pathHash
  · simp [here]
  · simp [here]

theorem mem_entriesSince (log : EventLog) (pathHash : UInt32) (since : VersionVector) (entry : LogEntry) :
    entry ∈ log.entriesSince pathHash since ↔
      entry ∈ log.entries ∧ entry.pathHash = pathHash ∧ since.dominates entry.version = false := by
  simp [entriesSince,List.mem_filter]

end EventLog

/-- What a client has: for each path it knows, its version. -/
structure RecoveryRequest where
  knownVersions : ExtTreeMap UInt32 VersionVector := ∅

namespace RecoveryRequest

def encodePath (e : UInt32 × VersionVector) : Bytes := writeU32 e.1 ++ e.2.encode

/-- The paths are written in the order in which the map is iterated. -/
def encode (r : RecoveryRequest) (order : List (UInt32 × VersionVector)) : Bytes :=
  writeU16 (UInt16.ofNat r.knownVersions.size) ++ order.flatMap encodePath

/-- Reads the paths of a request into it, and whether all of them were there. -/
def decodeLoop : Nat → Bytes → RecoveryRequest → RecoveryRequest × Bool
  | 0, _, out => (out,true)
  | n+1, p, out =>
    if p.length < 4 then (out,false)
    else
      let pathHash := readU32 p
      let p := p.drop 4
      if p.length ≤ 0 then (out,false)
      else
        let vvSize := 1 + (byteAt p 0).toNat * 6
        if p.length < vvSize then (out,false)
        else
          match VersionVector.decode (p.take vvSize) with
          | none => (out,false)
          | some vv => decodeLoop n (p.drop vvSize) ⟨out.knownVersions.insert pathHash vv⟩

/-- The request after reading, and whether the bytes were accepted. -/
def decode (data : Bytes) (out : RecoveryRequest) : RecoveryRequest × Bool :=
  if data.length < 2 then (out,false)
  else decodeLoop (readU16 data).toNat (data.drop 2) {}

end RecoveryRequest

structure PathRecovery where
  pathHash : UInt32
  needsSnapshot : Bool
  entries : List LogEntry

structure RecoveryPlan where
  paths : List PathRecovery

namespace RecoveryManager

/-- What one declared path of the server needs. -/
def pathRecovery (P : Primitives) (request : RecoveryRequest) (log : EventLog) (maxDeltaEntries : Nat)
    (region : StateRegion) : PathRecovery :=
  let pathHash := P.xxhash32 region.path.path
  match request.knownVersions[pathHash]? with
  | some known =>
    let entries := log.entriesSince pathHash known
    if entries.length ≤ maxDeltaEntries then ⟨pathHash,false,entries⟩ else ⟨pathHash,true,[]⟩
  | none => ⟨pathHash,true,[]⟩

def computePlan (P : Primitives) (request : RecoveryRequest) (log : EventLog) (registry : StateRegistry)
    (maxDeltaEntries : Nat) : RecoveryPlan :=
  ⟨registry.regions.toList.map (fun e => pathRecovery P request log maxDeltaEntries e.2)⟩

end RecoveryManager

namespace Recovery

inductive LogEvent where
  | appendDelta (pathHash : UInt32) (crdtType : CrdtType) (version : VersionVector) (data : Bytes) (timestampUs : UInt32)
  | appendSnapshot (pathHash : UInt32) (crdtType : CrdtType) (version : VersionVector) (data : Bytes)
      (timestampUs : UInt32)
  | compact (pathHash : UInt32) (snapshotVersion : VersionVector)
  deriving DecidableEq, Repr

/-- The log, and every delta that was ever appended to it. -/
structure History where
  log : EventLog := {}
  deltas : List LogEntry := []

def step (s : History) : LogEvent → History
  | .appendDelta pathHash crdtType version data timestampUs =>
    ⟨(s.log.appendDelta pathHash crdtType version data timestampUs).1,
      s.deltas ++ [(s.log.appendDelta pathHash crdtType version data timestampUs).2]⟩
  | .appendSnapshot pathHash crdtType version data timestampUs =>
    { s with log := (s.log.appendSnapshot pathHash crdtType version data timestampUs).1 }
  | .compact pathHash snapshotVersion => { s with log := (s.log.compact pathHash snapshotVersion).1 }

/-- A path is compacted only below a snapshot that is in the log. -/
def BelowSnapshot (s : History) : LogEvent → Prop
  | .compact pathHash snapshotVersion => ∃ entry ∈ s.log.entries, entry.isSnapshot = true ∧ entry.pathHash = pathHash ∧
      entry.version.dominates snapshotVersion = true
  | _ => True

instance (s : History) (e : LogEvent) : Decidable (BelowSnapshot s e) :=
  match e with
  | .compact pathHash snapshotVersion => inferInstanceAs (Decidable (∃ entry ∈ s.log.entries,
      entry.isSnapshot = true ∧ entry.pathHash = pathHash ∧ entry.version.dominates snapshotVersion = true))
  | .appendDelta _ _ _ _ _ => isTrue trivial
  | .appendSnapshot _ _ _ _ _ => isTrue trivial

/-- The delta is among the entries, or a snapshot of its path that dominates it. -/
def Covered (entries : List LogEntry) (d : LogEntry) : Prop :=
  d ∈ entries ∨ ∃ snapshot ∈ entries, snapshot.isSnapshot = true ∧ snapshot.pathHash = d.pathHash ∧
    snapshot.version.dominates d.version = true

theorem covered_append {entries : List LogEntry} {d : LogEntry} (more : List LogEntry) (covered : Covered entries d) :
    Covered (entries ++ more) d := by
  rcases covered with present | ⟨snapshot,present,isSnapshot,path,dominates⟩
  · exact .inl (List.mem_append_left _ present)
  · exact .inr ⟨snapshot,List.mem_append_left _ present,isSnapshot,path,dominates⟩

/-- Compacting below a snapshot keeps every delta covered. -/
theorem covered_compact {log : EventLog} {pathHash : UInt32} {snapshotVersion : VersionVector} {below : LogEntry}
    (present : below ∈ log.entries) (isSnapshot : below.isSnapshot = true) (path : below.pathHash = pathHash)
    (dominates : below.version.dominates snapshotVersion = true) {d : LogEntry} (covered : Covered log.entries d) :
    Covered (log.compact pathHash snapshotVersion).1.entries d := by
  -- snapshots survive every compaction
  have survives : ∀ entry ∈ log.entries, entry.isSnapshot = true →
      entry ∈ (log.compact pathHash snapshotVersion).1.entries :=
    fun entry member snap => (EventLog.mem_compact _ _ _ _).mpr ⟨member,fun _ => .inl snap⟩
  rcases covered with member | ⟨snapshot,member,snap,same,above⟩
  · by_cases kept : d ∈ (log.compact pathHash snapshotVersion).1.entries
    · exact .inl kept
    · rw [EventLog.mem_compact] at kept
      have dropped : d.pathHash = pathHash ∧ snapshotVersion.dominates d.version = true := by
        refine ⟨?_,?_⟩
        · by_contra other
          exact kept ⟨member,fun here => absurd here other⟩
        · by_contra new
          exact kept ⟨member,fun _ => .inr (by simpa using new)⟩
      exact .inr ⟨below,survives below present isSnapshot,isSnapshot,path.trans dropped.1.symm,
        VersionVector.dominates_trans dominates dropped.2⟩
  · exact .inr ⟨snapshot,survives snapshot member snap,snap,same,above⟩

/-- Every delta ever appended is still covered by the log. -/
def Kept (s : History) : Prop := ∀ d ∈ s.deltas, Covered s.log.entries d

theorem kept_step (s : History) (e : LogEvent) (kept : Kept s) (ok : BelowSnapshot s e) : Kept (step s e) := by
  cases e with
  | appendDelta pathHash crdtType version data timestampUs =>
    intro d member
    rcases List.mem_append.mp member with old | new
    · exact covered_append _ (kept d old)
    · rw [List.mem_singleton] at new
      subst new
      exact .inl (List.mem_append_right _ (List.mem_singleton.mpr rfl))
  | appendSnapshot pathHash crdtType version data timestampUs =>
    intro d member
    exact covered_append _ (kept d member)
  | compact pathHash snapshotVersion =>
    intro d member
    obtain ⟨below,present,isSnapshot,path,dominates⟩ := ok
    exact covered_compact present isSnapshot path dominates (kept d member)

theorem kept_run {es : List LogEvent} (safe : Along step BelowSnapshot {} es) : Kept (run step {} es) :=
  safe.run_invariant kept_step (fun d member => by cases member)

/-- What is new to a version is covered by the entries since that version. -/
theorem covered_entriesSince {log : EventLog} {d : LogEntry} {known : VersionVector} (covered : Covered log.entries d)
    (new : known.dominates d.version = false) : Covered (log.entriesSince d.pathHash known) d := by
  rcases covered with member | ⟨snapshot,member,snap,same,above⟩
  · exact .inl ((EventLog.mem_entriesSince _ _ _ _).mpr ⟨member,rfl,new⟩)
  · refine .inr ⟨snapshot,(EventLog.mem_entriesSince _ _ _ _).mpr ⟨member,same,?_⟩,snap,same,above⟩
    -- a version that dominates the snapshot would dominate the delta
    by_contra reached
    rw [Bool.not_eq_false] at reached
    rw [VersionVector.dominates_trans reached above] at new
    cases new

/-- What the plan for a path has to offer a client. -/
def Complete (s : History) (request : RecoveryRequest) (pr : PathRecovery) : Prop :=
  match request.knownVersions[pr.pathHash]? with
  | some known => ∀ d ∈ s.deltas, d.pathHash = pr.pathHash → known.dominates d.version = false →
      pr.needsSnapshot = true ∨ Covered pr.entries d
  | none => pr.needsSnapshot = true

theorem pathHash_pathRecovery (P : Primitives) (request : RecoveryRequest) (log : EventLog) (maxDeltaEntries : Nat)
    (region : StateRegion) :
    (RecoveryManager.pathRecovery P request log maxDeltaEntries region).pathHash = P.xxhash32 region.path.path := by
  simp only [RecoveryManager.pathRecovery]
  split
  · split
    · rfl
    · rfl
  · rfl

theorem complete_pathRecovery {s : History} (kept : Kept s) (P : Primitives) (request : RecoveryRequest)
    (maxDeltaEntries : Nat) (region : StateRegion) :
    Complete s request (RecoveryManager.pathRecovery P request s.log maxDeltaEntries region) := by
  unfold RecoveryManager.pathRecovery
  cases known : request.knownVersions[P.xxhash32 region.path.path]? with
  | none => simp only [Complete,known]
  | some version =>
    by_cases few : (s.log.entriesSince (P.xxhash32 region.path.path) version).length ≤ maxDeltaEntries
    · simp only [if_pos few,Complete,known]
      intro d member path new
      exact .inr (path ▸ covered_entriesSince (kept d member) new)
    · simp only [if_neg few,Complete,known]
      exact fun _ _ _ _ => .inl trivial

/-- Whatever was appended and compacted below snapshots, and whatever the client
    says, the plan has an entry for each declared path, and no entry misses a
    delta that is new to the client. -/
theorem recovery_complete (P : Primitives) (es : List LogEvent) (safe : Along step BelowSnapshot {} es)
    (registry : StateRegistry) (request : RecoveryRequest) (maxDeltaEntries : Nat) :
    (∀ (key : UInt32) (region : StateRegion), registry.regions[key]? = some region →
      ∃ pr ∈ (RecoveryManager.computePlan P request (run step {} es).log registry maxDeltaEntries).paths,
        pr.pathHash = P.xxhash32 region.path.path) ∧
    ∀ pr ∈ (RecoveryManager.computePlan P request (run step {} es).log registry maxDeltaEntries).paths,
      Complete (run step {} es) request pr := by
  constructor
  · intro key region declared
    have listed : (key,region) ∈ registry.regions.toList := ExtTreeMap.mem_toList_iff_getElem?_eq_some.mpr declared
    exact ⟨_,List.mem_map.mpr ⟨(key,region),listed,rfl⟩,pathHash_pathRecovery P request _ maxDeltaEntries region⟩
  · intro pr member
    obtain ⟨e,_,rfl⟩ := List.mem_map.mp member
    exact complete_pathRecovery (kept_run safe) P request maxDeltaEntries e.2

/-- The path of a counter. -/
def countPath : StatePath := ⟨ofText "/count"⟩

/-- A delta of the counter is compacted away under a snapshot. -/
def compacted : List LogEvent :=
  [.appendDelta (plain.xxhash32 countPath.path) .gCounter ⟨[⟨1,1⟩]⟩ [1] 10,
    .appendSnapshot (plain.xxhash32 countPath.path) .gCounter ⟨[⟨1,1⟩]⟩ [2] 20,
    .compact (plain.xxhash32 countPath.path) ⟨[⟨1,1⟩]⟩]

/-- A client that has nothing of the counter yet is offered the snapshot. -/
theorem recovery_complete_compacted :
    (run step {} compacted).log.entries.length = 1 ∧
    ∀ pr ∈ (RecoveryManager.computePlan plain ⟨ExtTreeMap.empty.insert (plain.xxhash32 countPath.path) ⟨[]⟩⟩
        (run step {} compacted).log ((StateRegistry.new 1).declare plain countPath .gCounter .reliable).1 50).paths,
      Complete (run step {} compacted) ⟨ExtTreeMap.empty.insert (plain.xxhash32 countPath.path) ⟨[]⟩⟩ pr :=
  ⟨by decide +kernel,(recovery_complete plain compacted (by decide +kernel) _ _ _).2⟩

end Recovery
end Rom
