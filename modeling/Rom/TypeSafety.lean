import Rom.PeerFrames
import Rom.Relay

/-!
Payloads of one type at a value of another. A frame states the type of its data,
but neither a node nor an aggregator compares it with the type of the region or
batch that the data is merged into, and the bytes of one type are often a payload
of another as well (`register_counted`). Such a frame leaves the region alone
exactly if its bytes, read as those of the region's type, bring nothing that the
region does not have (`type_safe_iff`).
-/
namespace Rom.TypeSafety
open Rom.Runs Peer
open Rom.Absorption (Absorbed merge_unchanged_iff)

/-! ### Nodes -/

/-- The path and the type of data that a frame states. -/
def stated (frame : Frame) : Option (UInt32 × CrdtType) :=
  match frame.type with
  | .stateDelta => (StateDeltaFrame.decode frame.payload).map (fun f => (f.pathHash,f.crdtType))
  | .stateSnapshot => (StateSnapshotFrame.decode frame.payload).map (fun f => (f.pathHash,f.crdtType))
  | _ => none

/-- A frame with data of another type leaves the region of its path as it is. -/
def TypeSafe (P : Primitives) (mc : ManagedConnection) (st : Progress) (a : Arrival) : Prop :=
  ∀ (hash : UInt32) (type : CrdtType) (region : StateRegion), stated a.frame = some (hash,type) →
    st.peer.state.get hash = some region → type ≠ region.crdtType →
      (frameStep P mc st a).peer.state.get hash = some region

/-- Data of another type that reaches a region brings nothing that it does not
    have. -/
def Harmless (P : Primitives) (mc : ManagedConnection) (st : Progress) (a : Arrival) : Prop :=
  ∀ (hash : UInt32) (type : CrdtType) (region : StateRegion) (data : Bytes), stated a.frame = some (hash,type) →
    st.peer.state.get hash = some region → type ≠ region.crdtType →
      (arrivalAction P mc st a = .applyDelta hash data ∨ arrivalAction P mc st a = .applySnapshot hash data) →
        Absorbed region.crdt data

theorem typeSafe_step_iff (P : Primitives) (mc : ManagedConnection) (st : Progress) (a : Arrival) :
    TypeSafe P mc st a ↔ Harmless P mc st a := by
  constructor
  · intro safe hash type region data states found mismatch action
    have after := safe hash type region states found mismatch
    have merged : (frameStep P mc st a).peer.state.get hash = some { region with crdt := (region.crdt.merge data).1 } := by
      have regions := frameStep_regions P mc st a hash
      rw [StateRegistry.get] at found ⊢
      rcases action with delta | snapshot
      · simpa only [delta,if_true,found,Option.map_some] using regions
      · simpa only [snapshot,if_true,found,Option.map_some] using regions
    rw [merged] at after
    exact (merge_unchanged_iff _ _).mp (congrArg StateRegion.crdt (Option.some.inj after))
  · intro harmless hash type region states found mismatch
    rcases region_step P mc st a hash with same | ⟨before,data,here,action,merged⟩
    · exact same.trans found
    · obtain rfl : region = before := Option.some.inj (found.symm.trans here)
      have absorbed := harmless hash type region data states found mismatch action
      rw [StateRegistry.get,merged,(merge_unchanged_iff _ _).mpr absorbed]

/-! ### Aggregators -/

/-- A delta of another type leaves the value of the open batch as it is. -/
def BatchSafe (agg : Aggregator) : Aggregator.Call → Prop
  | .ingest now pathHash crdtType data => ∀ bucket after, agg.buckets[pathHash]? = some bucket →
      crdtType ≠ bucket.crdtType →
        Aggregator.ingestBucket now crdtType data agg.buckets[pathHash]? = some after → after.crdt = bucket.crdt
  | _ => True

/-- A delta of another type brings nothing that the open batch does not have. -/
def BatchHarmless (agg : Aggregator) : Aggregator.Call → Prop
  | .ingest _ pathHash crdtType data => ∀ bucket, agg.buckets[pathHash]? = some bucket →
      crdtType ≠ bucket.crdtType → Absorbed bucket.crdt data
  | _ => True

theorem batchSafe_iff (agg : Aggregator) (call : Aggregator.Call) : BatchSafe agg call ↔ BatchHarmless agg call := by
  cases call with
  | ingest now pathHash crdtType data =>
    constructor
    · intro safe bucket found mismatch
      have after := safe bucket { bucket with crdt := (bucket.crdt.merge data).1, deltaCount := bucket.deltaCount + 1 }
        found mismatch (by rw [found]; rfl)
      exact (merge_unchanged_iff _ _).mp after
    · intro harmless bucket after found mismatch ingested
      rw [found] at ingested
      cases ingested
      exact (merge_unchanged_iff _ _).mpr (harmless bucket found mismatch)
  | flush => exact Iff.rfl
  | flushIfReady now => exact Iff.rfl

/-- For which packets and which runs of an aggregator data of another type changes
    nothing. -/
theorem type_safe_iff (P : Primitives) (p : Peer) (mc : ManagedConnection) (clock : Nat → Nat) (d : PacketDecoder)
    (agg : Aggregator) (calls : List Aggregator.Call) :
    (Along (frameStep P mc) (TypeSafe P mc) ⟨p,0⟩ (arrivals d clock) ↔
        Along (frameStep P mc) (Harmless P mc) ⟨p,0⟩ (arrivals d clock)) ∧
      (Along (fun agg call => (agg.apply call).1) BatchSafe agg calls ↔
        Along (fun agg call => (agg.apply call).1) BatchHarmless agg calls) := by
  constructor
  · exact along_congr (I := fun _ => True) (fun _ _ _ => trivial) (fun st a _ => typeSafe_step_iff P mc st a) trivial
  · exact along_congr (I := fun _ => True) (fun _ _ _ => trivial) (fun agg call _ => batchSafe_iff agg call) trivial

/-! ### A register that is counted -/

/-- Node 1 with a counter at `/a` and the key of node 2. -/
def countingNode : Peer :=
  ((Peer.new 1 (plainKeys 1)).registerPeerKey 2 (plainKeys 2).publicKey |>.declare plain
    ⟨ofText "/a"⟩ .gCounter .reliable).1

/-- A register written by node 2 at a time that begins with the byte 1. -/
def written : LwwRegister := (LwwRegister.new 2).set [0,0,0,0,9] 0x01000500

/-- The delta of the register, signed by node 2. -/
def signedDelta : Bytes :=
  let content := (StateDeltaFrame.mk (plain.xxhash32 (ofText "/a")) .lwwRegister .reliable 2).encode ++ written.delta.1
  content ++ (plain.sign (plainKeys 2).secretKey content).toList

/-- The batch of a counter is open. -/
def counting : Aggregator.Call := .ingest 0 7 .gCounter ((GCounter.new 2).increment 1).delta.1

/-- It is given the delta of the register. -/
def mixedBatch : List Aggregator.Call := [counting,.ingest 0 7 .lwwRegister written.delta.1]

theorem counted_at_node :
    ¬ Along (frameStep plain plainLink) (TypeSafe plain plainLink) ⟨countingNode,0⟩
      (arrivals (PeerFrames.onePacket .stateDelta signedDelta) (fun _ => 0)) := by
  have one : arrivals (PeerFrames.onePacket .stateDelta signedDelta) (fun _ => 0) =
      [⟨⟨.stateDelta,signedDelta⟩,0⟩] := by decide +kernel
  rw [one]
  rintro ⟨safe,_⟩
  have before : (countingNode.state.get (plain.xxhash32 (ofText "/a"))).map (fun r => (r.crdtType,r.crdt.snapshot)) =
      some (.gCounter,(GCounter.new 1).snapshot) := by decide +kernel
  have after : ((frameStep plain plainLink ⟨countingNode,0⟩ ⟨⟨.stateDelta,signedDelta⟩,0⟩).peer.state.get
      (plain.xxhash32 (ofText "/a"))).map (·.crdt.snapshot) =
        some (GCounter.encodeEntries [⟨1,0⟩,⟨5,0x20000000009⟩]) := by decide +kernel
  obtain ⟨region,found,here⟩ := Option.map_eq_some_iff.mp before
  obtain ⟨type,new⟩ := Prod.mk.inj here
  have kept := safe _ .lwwRegister region (by decide +kernel) found (by rw [type]; decide)
  rw [kept,Option.map_some,new] at after
  revert after
  decide

theorem counted_in_batch : ¬ Along (fun agg call => (agg.apply call).1) BatchSafe {} mixedBatch := by
  rintro ⟨_,safe,_⟩
  have before : ((Aggregator.apply {} counting).1.buckets[(7 : UInt32)]?).map (fun b => (b.crdtType,b.crdt.snapshot)) =
      some (.gCounter,GCounter.encodeEntries [⟨0,0⟩,⟨2,1⟩]) := by decide +kernel
  have after : (Aggregator.ingestBucket 0 .lwwRegister written.delta.1
      (Aggregator.apply {} counting).1.buckets[(7 : UInt32)]?).map (·.crdt.snapshot) =
        some (GCounter.encodeEntries [⟨0,0⟩,⟨2,1⟩,⟨5,0x20000000009⟩]) := by decide +kernel
  obtain ⟨bucket,found,here⟩ := Option.map_eq_some_iff.mp before
  obtain ⟨batch,ingested,there⟩ := Option.map_eq_some_iff.mp after
  obtain ⟨type,small⟩ := Prod.mk.inj here
  rw [safe bucket batch found (by rw [type]; decide) ingested,small] at there
  revert there
  decide

/-- The delta of a register is taken for an entry of node 5, at a node as well as in
    a batch. -/
theorem register_counted :
    ¬ Along (frameStep plain plainLink) (TypeSafe plain plainLink) ⟨countingNode,0⟩
        (arrivals (PeerFrames.onePacket .stateDelta signedDelta) (fun _ => 0)) ∧
      ¬ Along (fun agg call => (agg.apply call).1) BatchSafe {} mixedBatch := ⟨counted_at_node,counted_in_batch⟩

end Rom.TypeSafety
