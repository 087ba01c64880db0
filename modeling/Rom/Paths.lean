import Rom.PeerWrites
import Mathlib.Data.Fintype.EquivFin

/-!
Paths of a node. Regions are kept by the 32-bit hash of their path, and every
operation goes to the region at the hash of the path that it is given, without
looking at the path of that region. An operation on a path that is not declared
should fail and leave other regions alone; instead it goes to the region of a
declared path with the same hash (`declared_overwritten`), and such paths exist
whatever the hash function is (`interference`). Where no declared path has its
hash, paths do not interfere (`isolated_iff`).
-/
namespace Rom.Paths
open Std Rom.Runs

/-- An operation that is addressed to a path. -/
inductive PathCall where
  | declare (type : CrdtType) (rel : Reliability)
  | setLww (data : Bytes) (rank : UInt16 → Nat) (now : Nat)
  | incrementCounter (amount : UInt64)
  | applyDelta (data : Bytes)
  | applySnapshot (data : Bytes)

def address (P : Primitives) (path : StatePath) (p : Peer) : PathCall → Peer
  | .declare type rel => (p.declare P path type rel).1
  | .setLww data rank now => (p.setLww P path data rank now).1
  | .incrementCounter amount => (p.incrementCounter P path amount).1
  | .applyDelta data => { p with state := (p.state.applyDelta (P.xxhash32 path.path) data).1 }
  | .applySnapshot data => { p with state := (p.state.applySnapshot (P.xxhash32 path.path) data).1 }

/-- What happens to the regions of a node: operations on paths, data from others for
    any hash, collecting what is new; and its connections may change. -/
inductive Call where
  | onPath (path : StatePath) (call : PathCall)
  | merge (pathHash : UInt32) (data : Bytes)
  | collect
  | relink (links : Links)

def step (P : Primitives) (p : Peer) : Call → Peer
  | .onPath path call => address P path p call
  | .merge pathHash data => { p with state := (p.state.applyDelta pathHash data).1 }
  | .collect => { p with state := p.state.collectDeltas.2 }
  | .relink links => { p with links := links }

/-- The path has a region of its own. -/
def Declared (P : Primitives) (p : Peer) (path : StatePath) : Prop :=
  ∃ region, p.state.getPath P path = some region ∧ region.path = path

/-- Operations on a path fail and leave the region of another alone. If the path can
    be declared, then at any time later they still leave it alone. -/
structure Isolated (P : Primitives) (p : Peer) (path other : StatePath) : Prop where
  setLww : ∀ data rank now, (p.setLww P path data rank now).2 = false ∧
    (p.setLww P path data rank now).1.state.getPath P other = p.state.getPath P other
  incrementCounter : ∀ amount, (p.incrementCounter P path amount).2 = false ∧
    (p.incrementCounter P path amount).1.state.getPath P other = p.state.getPath P other
  get : p.state.getPath P path = none
  declared : ∀ type rel, (p.declare P path type rel).2 = true →
    (p.declare P path type rel).1.state.getPath P other = p.state.getPath P other ∧
      ∀ later call, let after := run (step P) (p.declare P path type rel).1 later
        (address P path after call).state.getPath P other = after.state.getPath P other

/-! ### Where operations go -/

section
variable {P : Primitives} {p : Peer} {path : StatePath}

/-- What an operation on a path does to the regions: nothing, or it changes the one
    at the hash of the path, or it puts one there. -/
inductive Effect (P : Primitives) (p : Peer) (path : StatePath) (s : StateRegistry) : Prop where
  | none (same : s.regions = p.state.regions)
  | change (region after : StateRegion) (found : p.state.getPath P path = some region) (kept : after.path = region.path)
      (changed : s.regions = (p.state.put (P.xxhash32 path.path) after).regions)
  | create (region : StateRegion) (absent : p.state.getPath P path = .none) (own : region.path = path)
      (created : s.regions = (p.state.put (P.xxhash32 path.path) region).regions)

theorem setLww_effect (data : Bytes) (rank : UInt16 → Nat) (now : Nat) :
    Effect P p path (p.setLww P path data rank now).1.state := by
  cases found : p.state.get (P.xxhash32 path.path) with
  | none =>
    refine .none ?_
    simp only [Peer.setLww,found]
  | some region =>
    simp only [Peer.setLww,found]
    split
    · refine .change region _ found ?_ rfl
      rfl
    · exact .none rfl

theorem incrementCounter_effect (amount : UInt64) : Effect P p path (p.incrementCounter P path amount).1.state := by
  cases found : p.state.get (P.xxhash32 path.path) with
  | none =>
    refine .none ?_
    simp only [Peer.incrementCounter,found]
  | some region =>
    simp only [Peer.incrementCounter,found]
    split
    · refine .change region _ found ?_ rfl
      rfl
    · exact .none rfl

theorem declare_effect (type : CrdtType) (rel : Reliability) : Effect P p path (p.declare P path type rel).1.state := by
  rw [Peer.declare,StateRegistry.declare]
  dsimp only
  split
  · exact .none rfl
  · next absent =>
    cases p.state.createCrdt type with
    | none => exact .none rfl
    | some crdt =>
      refine .create _ ?_ rfl rfl
      rw [StateRegistry.getPath,StateRegistry.get]
      simpa using absent

theorem applyDelta_effect (data : Bytes) : Effect P p path (p.state.applyDelta (P.xxhash32 path.path) data).1 := by
  cases found : p.state.get (P.xxhash32 path.path) with
  | none =>
    refine .none ?_
    simp only [StateRegistry.applyDelta,found]
  | some region =>
    refine .change region { region with crdt := (region.crdt.merge data).1 } found rfl ?_
    simp only [StateRegistry.applyDelta,found,StateRegistry.put]

theorem address_effect (call : PathCall) : Effect P p path (address P path p call).state := by
  cases call with
  | declare type rel => exact declare_effect type rel
  | setLww data rank now => exact setLww_effect data rank now
  | incrementCounter amount => exact incrementCounter_effect amount
  | applyDelta data => exact applyDelta_effect data
  | applySnapshot data => exact applyDelta_effect data

/-- An operation leaves the regions at other hashes alone. -/
theorem Effect.other {s : StateRegistry} (effect : Effect P p path s) {hash : UInt32}
    (apart : P.xxhash32 path.path ≠ hash) : s.get hash = p.state.get hash := by
  have beside : ∀ region, (p.state.put (P.xxhash32 path.path) region).regions[hash]? = p.state.regions[hash]? := by
    intro region
    simp [StateRegistry.put,ExtTreeMap.getElem?_insert,apart]
  rw [StateRegistry.get,StateRegistry.get]
  cases effect with
  | none same => rw [same]
  | change _ after _ _ changed => rw [changed,beside after]
  | create region _ _ created => rw [created,beside region]

/-! ### Every region is at the hash of its path -/

def Keyed (P : Primitives) (s : StateRegistry) : Prop :=
  ∀ hash region, s.get hash = some region → P.xxhash32 region.path.path = hash

theorem Effect.keyed {s : StateRegistry} (effect : Effect P p path s) (keyed : Keyed P p.state) : Keyed P s := by
  intro hash region found
  by_cases same : P.xxhash32 path.path = hash
  · subst same
    cases effect with
    | none unchanged =>
      rw [StateRegistry.get,unchanged] at found
      exact keyed _ region found
    | change old after old_found kept changed =>
      rw [StateRegistry.get,changed,StateRegistry.put,ExtTreeMap.getElem?_insert_self] at found
      cases found
      rw [kept]
      exact keyed _ old old_found
    | create own _ path_eq created =>
      rw [StateRegistry.get,created,StateRegistry.put,ExtTreeMap.getElem?_insert_self] at found
      cases found
      rw [path_eq]
  · rw [effect.other same] at found
    exact keyed hash region found

theorem keyed_merge {s : StateRegistry} (keyed : Keyed P s) (pathHash : UInt32) (data : Bytes) :
    Keyed P (s.applyDelta pathHash data).1 := by
  intro hash region found
  rw [StateRegistry.get,StateRegistry.applyDelta_regions] at found
  split at found
  · obtain ⟨old,old_found,rfl⟩ := Option.map_eq_some_iff.mp found
    exact keyed hash old old_found
  · exact keyed hash region found

theorem keyed_collect {s : StateRegistry} (keyed : Keyed P s) : Keyed P s.collectDeltas.2 := by
  intro hash region found
  cases old : s.get hash with
  | none =>
    rw [s.collectDeltas_none old] at found
    cases found
  | some before =>
    rw [(s.collectDeltas_region old).1] at found
    cases found
    have path : (StateRegistry.collected before).path = before.path := by
      rw [StateRegistry.collected]
      split <;> rfl
    rw [path]
    exact keyed hash before old

theorem keyed_step (keyed : Keyed P p.state) (call : Call) : Keyed P (step P p call).state := by
  cases call with
  | onPath path call => exact (address_effect call).keyed keyed
  | merge pathHash data => exact keyed_merge keyed pathHash data
  | collect => exact keyed_collect keyed
  | relink links => exact keyed

theorem keyed_reached (P : Primitives) (nodeId : UInt16) (keys : KeyPair) (calls : List Call) :
    Keyed P (run (step P) (Peer.new nodeId keys) calls).state := by
  refine run_invariant (I := fun p : Peer => Keyed P p.state) (fun p call keyed => keyed_step keyed call) ?_
  intro hash region found
  simp [Peer.new,StateRegistry.new,StateRegistry.get] at found

/-! ### Interference -/

/-- A path that finds no region is isolated from every declared one. -/
theorem isolated_of_absent {other : StatePath} (absent : p.state.getPath P path = none) (declared : Declared P p other) :
    Isolated P p path other := by
  have apart : P.xxhash32 path.path ≠ P.xxhash32 other.path := by
    obtain ⟨region,found,_⟩ := declared
    intro same
    rw [StateRegistry.getPath,same] at absent
    rw [StateRegistry.getPath,absent] at found
    cases found
  rw [StateRegistry.getPath] at absent
  refine ⟨?_,?_,absent,?_⟩
  · intro data rank now
    simp [Peer.setLww,absent]
  · intro amount
    simp [Peer.incrementCounter,absent]
  · intro type rel _
    exact ⟨(declare_effect type rel).other apart,fun _ call => (address_effect call).other apart⟩

end

/-- A path is isolated from a declared one exactly if no declared path has its
    hash. -/
theorem isolated_iff (P : Primitives) (nodeId : UInt16) (keys : KeyPair) (calls : List Call) (path other : StatePath)
    (declared : Declared P (run (step P) (Peer.new nodeId keys) calls) other) :
    Isolated P (run (step P) (Peer.new nodeId keys) calls) path other ↔
      ∀ taken, Declared P (run (step P) (Peer.new nodeId keys) calls) taken →
        P.xxhash32 taken.path ≠ P.xxhash32 path.path := by
  constructor
  · rintro isolated taken ⟨region,found,_⟩ same
    have absent := isolated.get
    rw [StateRegistry.getPath,← same] at absent
    rw [StateRegistry.getPath,absent] at found
    cases found
  · intro free
    refine isolated_of_absent ?_ declared
    cases found : (run (step P) (Peer.new nodeId keys) calls).state.getPath P path with
    | none => rfl
    | some region =>
      have hash := keyed_reached P nodeId keys calls _ region found
      refine absurd hash (free region.path ⟨region,?_,rfl⟩)
      rw [StateRegistry.getPath,hash]
      exact found

/-- A node that declares a register. -/
def registered (path : StatePath) : List Call := [.onPath path (.declare .lwwRegister .reliable)]

/-- Every path with the hash of the register finds it. -/
theorem getPath_registered (P : Primitives) (nodeId : UInt16) (keys : KeyPair) (path other : StatePath) :
    (run (step P) (Peer.new nodeId keys) (registered path)).state.getPath P other =
      if P.xxhash32 path.path = P.xxhash32 other.path then
        some { path := path, crdtType := .lwwRegister, reliability := .reliable, crdt := .lwwRegister (.new nodeId) }
      else none := by
  simp [registered,step,address,Peer.declare,Peer.new,StateRegistry.declare,StateRegistry.new,StateRegistry.createCrdt,
    StateRegistry.getPath,StateRegistry.get,ExtTreeMap.getElem?_insert]

theorem declared_registered (P : Primitives) (nodeId : UInt16) (keys : KeyPair) (path other : StatePath) :
    Declared P (run (step P) (Peer.new nodeId keys) (registered path)) other ↔ path = other := by
  rw [Declared,getPath_registered]
  constructor
  · rintro ⟨region,found,own⟩
    split at found
    · cases found
      exact own
    · cases found
  · rintro rfl
    exact ⟨_,if_pos rfl,rfl⟩

theorem isolated_apart :
    Isolated plain (run (step plain) (Peer.new 1 (plainKeys 1)) (registered ⟨ofText "/a"⟩))
      ⟨ofText "/b"⟩ ⟨ofText "/a"⟩ := by
  refine (isolated_iff plain 1 (plainKeys 1) (registered ⟨ofText "/a"⟩) ⟨ofText "/b"⟩ ⟨ofText "/a"⟩ ?_).mpr ?_
  · rw [declared_registered]
  · intro taken declared
    rw [declared_registered] at declared
    subst declared
    decide +kernel

/-- By the hash of `plain` the paths `/Aa` and `/BB` are the same: a write to the
    one, which is not declared, succeeds and sets the register of the other. -/
theorem declared_overwritten :
    let p := run (step plain) (Peer.new 1 (plainKeys 1)) (registered ⟨ofText "/Aa"⟩)
    let value := fun p : Peer => (p.state.getPath plain ⟨ofText "/Aa"⟩).map (fun region => region.crdt.snapshot)
    Declared plain p ⟨ofText "/Aa"⟩ ∧ ¬ Declared plain p ⟨ofText "/BB"⟩ ∧
      (p.setLww plain ⟨ofText "/BB"⟩ [9] (fun _ => 0) 0).2 = true ∧
      value p = some [0,0,0,0,0,1] ∧
      value (p.setLww plain ⟨ofText "/BB"⟩ [9] (fun _ => 0) 0).1 = some [0,0,0,0,0,1,9] ∧
      ¬ Isolated plain p ⟨ofText "/BB"⟩ ⟨ofText "/Aa"⟩ := by
  intro p value
  have written : (p.setLww plain ⟨ofText "/BB"⟩ [9] (fun _ => 0) 0).2 = true := by decide +kernel
  refine ⟨?_,?_,written,by decide +kernel,by decide +kernel,?_⟩
  · exact (declared_registered plain 1 (plainKeys 1) _ _).mpr rfl
  · rw [declared_registered]
    decide +kernel
  · intro isolated
    rw [(isolated.setLww _ _ _).1] at written
    cases written

/-- Whatever the hash is, there are two paths that are not isolated although only
    one of them is declared. -/
theorem interference (P : Primitives) (nodeId : UInt16) (keys : KeyPair) :
    ∃ path other, let p := run (step P) (Peer.new nodeId keys) (registered other)
      Declared P p other ∧ ¬ Declared P p path ∧ ¬ Isolated P p path other := by
  obtain ⟨path,other,apart,collide⟩ := Finite.exists_ne_map_eq_of_infinite (fun path => (P.xxhash32 path).toFin)
  have same : P.xxhash32 path = P.xxhash32 other := UInt32.toFin_inj.mp collide
  refine ⟨⟨path⟩,⟨other⟩,(declared_registered P nodeId keys _ _).mpr rfl,?_,?_⟩
  · rw [declared_registered]
    intro equal
    exact apart (congrArg StatePath.path equal).symm
  · intro isolated
    have absent := isolated.get
    rw [getPath_registered,if_pos same.symm] at absent
    cases absent

end Rom.Paths
