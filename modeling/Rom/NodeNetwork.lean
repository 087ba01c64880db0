import Rom.PeerFrames
import Rom.PeerWrites
import Rom.Poll
import Rom.Replicas

/-!
Nodes over a network that may do anything: it may lose, delay, double, cut and forge
packets, and give them any sender. A node is called to declare, write, connect, flush
and poll, and each poll is handed any packet. What the network cannot do is sign: what
verifies under the key of a node is a delta that a flush of the node has collected
(`Genuine`). Then what is merged into a region of any node is the delta of a node for
the path of the region (`merged_signed`), unless the two bytes of a node id agree: the
signed bytes of a delta can pass for a snapshot of such a node.
-/
namespace Rom.NodeNetwork
open Std Rom.Runs Peer
open Rom.PeerFrames (SignedRange regions_authenticated)
open Rom.Crdt (mergeAll)

/-- What a node is called to do. -/
inductive NodeCall where
  | declare (path : StatePath) (type : CrdtType) (rel : Reliability)
  | setLww (path : StatePath) (data : Bytes) (rank : UInt16 → Nat) (now : Nat)
  | incrementCounter (path : StatePath) (amount : UInt64)
  | setConnectionResolution (remoteNodeId : UInt16) (tier : ResolutionTier) (config : ResolutionConfig)
  | setAccessControl (enabled : Bool)
  | link (x : Exchange) (call : LinkCall)
  | flush (rank : UInt16 → Nat) (clock : Nat → Nat)
  | poll (rank : UInt16 → Nat) (x : Exchange)

namespace NodeCall

def apply (P : Primitives) (p : Peer) : NodeCall → Peer
  | .declare path type rel => (p.declare P path type rel).1
  | .setLww path data rank now => (p.setLww P path data rank now).1
  | .incrementCounter path amount => (p.incrementCounter P path amount).1
  | .setConnectionResolution remoteNodeId tier config => p.setConnectionResolution remoteNodeId tier config
  | .setAccessControl enabled => p.setAccessControl enabled
  | .link x call => p.linkCall P x call
  | .flush rank clock => (p.flush P rank clock).peer
  | .poll rank x => (p.poll P rank x).peer

/-- The deltas that a call collects. -/
def collects (P : Primitives) (p : Peer) : NodeCall → List PendingDelta
  | .flush rank clock => (p.flush P rank clock).deltas
  | _ => []

end NodeCall

/-- The nodes, and the deltas that they have collected and may have signed. -/
structure Nodes (ι : Type*) where
  peers : ι → Peer
  signed : List (ι × PendingDelta)

/-- A call of one of the nodes. -/
structure Event (ι : Type*) where
  node : ι
  call : NodeCall

def step {ι : Type*} [DecidableEq ι] (P : Primitives) (s : Nodes ι) (e : Event ι) : Nodes ι where
  peers := Function.update s.peers e.node (e.call.apply P (s.peers e.node))
  signed := s.signed ++ (e.call.collects P (s.peers e.node)).map (fun d => (e.node,d))

/-- Of the frames that a poll is handed, what verifies under the key of a node is a
    delta that the node has collected. -/
def Genuine {ι : Type*} (P : Primitives) (s : Nodes ι) (e : Event ι) : Prop :=
  ∀ rank x data from_, e.call = .poll rank x → x.reply = some (data,from_) → ∀ f ∈ dataFrames P data, ∀ j,
    P.verify (s.peers j).keys.publicKey (trailer f.payload) (content f.payload) = true →
      ∃ delta, (j,delta) ∈ s.signed ∧ content f.payload = (s.peers j).deltaContent delta

/-! ### What a call leaves alone -/

/-- The node is the same, with the same keys. -/
def SameNode (p q : Peer) : Prop := q.nodeId = p.nodeId ∧ q.keys = p.keys ∧ q.peerKeys = p.peerKeys

theorem SameNode.refl (p : Peer) : SameNode p p := ⟨rfl,rfl,rfl⟩

theorem SameNode.trans {p q r : Peer} (first : SameNode p q) (second : SameNode q r) : SameNode p r :=
  ⟨second.1.trans first.1,second.2.1.trans first.2.1,second.2.2.trans first.2.2⟩

theorem deltaFrame_congr (P : Primitives) {p q : Peer} (same : SameNode p q) (d : PendingDelta) :
    PeerSend.deltaFrame P q d = PeerSend.deltaFrame P p d := by
  obtain ⟨id,keys,_⟩ := same
  have payload : q.buildSignedDelta P d = p.buildSignedDelta P d := by
    simp only [buildSignedDelta,deltaContent,id,keys]
  rw [PeerSend.deltaFrame,payload]
  rfl

theorem sameNode_frameStep (P : Primitives) (mc : ManagedConnection) (st : Progress) (a : Arrival) :
    SameNode st.peer (frameStep P mc st a).peer := by
  rw [frameStep]
  cases arrivalAction P mc st a with
  | reportFailure author pathHash =>
    simp only [perform]
    split <;> exact SameNode.refl _
  | _ => exact SameNode.refl _

theorem sameNode_visit (P : Primitives) (clock : Nat → Nat) (deltas : List PendingDelta) (st : Flushing)
    (e : UInt16 × ManagedConnection) : SameNode st.peer (st.visit P clock deltas e).peer := by
  rw [Flushing.visit]
  split
  · exact SameNode.refl _
  · split
    · exact SameNode.refl _
    · dsimp only
      split <;> exact SameNode.refl _

/-- The frames of the packet are processed at the node, or none is. -/
def PollsInto (P : Primitives) (p : Peer) (x : Exchange) (after : Peer) : Prop :=
  (after.state = p.state ∧ SameNode p after) ∨
  ∃ data from_ d mc q, x.reply = some (data,from_) ∧ dataPacket P data = some d ∧ q.state = p.state ∧
    SameNode p q ∧ after = (run (frameStep P mc) ⟨q,0⟩ (arrivals d x.clock)).peer

theorem receive_pollsInto {P : Primitives} {p : Peer} {x : Exchange} {data : Bytes} {from_ : Endpoint} {d : PacketDecoder}
    (reply : x.reply = some (data,from_)) (parsed : PacketDecoder.ofPacket data = some d)
    (checked : d.verifyChecksum P = true) (id : UInt16) (mc : ManagedConnection) :
    PollsInto P p x (p.receive P id mc d data from_ x).peer := by
  rw [receive]
  dsimp only
  split
  · split <;> exact .inl ⟨rfl,SameNode.refl _⟩
  · next type =>
    have accepted : dataPacket P data = some d := by
      simp only [dataPacket,parsed]
      rw [if_pos ⟨checked,type⟩]
    refine .inr ⟨data,from_,d,_,p.putLink id _,reply,accepted,?_,?_,rfl⟩
    · rfl
    · exact SameNode.refl _
  · exact .inl ⟨rfl,SameNode.refl _⟩

theorem poll_pollsInto (P : Primitives) (p : Peer) (rank : UInt16 → Nat) (x : Exchange) :
    PollsInto P p x (p.poll P rank x).peer := by
  rw [poll]
  split
  · exact .inl ⟨rfl,SameNode.refl _⟩
  · split
    · exact .inl ⟨rfl,SameNode.refl _⟩
    · next data from_ reply =>
      split
      · exact .inl ⟨rfl,SameNode.refl _⟩
      · next d parsed =>
        split
        · exact .inl ⟨rfl,SameNode.refl _⟩
        · next checked =>
          have valid : d.verifyChecksum P = true := by simpa using checked
          split
          · exact receive_pollsInto reply parsed valid _ _
          · split
            · rw [autoAccept]
              dsimp only
              split
              · exact .inl ⟨rfl,SameNode.refl _⟩
              · split <;> exact .inl ⟨rfl,SameNode.refl _⟩
            · split
              · exact .inl ⟨rfl,SameNode.refl _⟩
              · exact receive_pollsInto reply parsed valid _ _

theorem sameNode_run (P : Primitives) (mc : ManagedConnection) (st : Progress) (as : List Arrival) :
    SameNode st.peer (run (frameStep P mc) st as).peer :=
  run_invariant (I := fun st' : Progress => SameNode st.peer st'.peer)
    (fun st' a same => same.trans (sameNode_frameStep P mc st' a)) (SameNode.refl _)

theorem sameNode_apply (P : Primitives) (p : Peer) (call : NodeCall) : SameNode p (call.apply P p) := by
  cases call with
  | declare path type rel => exact SameNode.refl _
  | setLww path data rank now =>
    rw [NodeCall.apply,setLww]
    dsimp only
    split
    · exact SameNode.refl _
    · split <;> exact SameNode.refl _
  | incrementCounter path amount =>
    rw [NodeCall.apply,incrementCounter]
    dsimp only
    split
    · exact SameNode.refl _
    · split <;> exact SameNode.refl _
  | setConnectionResolution remoteNodeId tier config => exact SameNode.refl _
  | setAccessControl enabled => exact SameNode.refl _
  | link x call => cases call <;> exact SameNode.refl _
  | flush rank clock =>
    rw [NodeCall.apply,Peer.flush]
    split
    · exact SameNode.refl _
    · dsimp only
      split
      · exact SameNode.refl _
      · exact run_invariant (I := fun st : Flushing => SameNode p st.peer)
          (fun st e same => same.trans (sameNode_visit P clock _ st e)) (SameNode.refl _)
  | poll rank x =>
    rcases poll_pollsInto P p rank x with ⟨_,same⟩ | ⟨data,from_,d,mc,q,_,_,_,same,polled⟩
    · exact same
    · rw [NodeCall.apply,polled]
      exact same.trans (sameNode_run P mc ⟨q,0⟩ _)

/-! ### What a call does to a region -/

/-- The region after an increment. -/
def incremented (nodeId : UInt16) (amount : UInt64) (region : StateRegion) : StateRegion :=
  match region.crdtType, region.crdt with
  | .gCounter, .gCounter c =>
    { region with crdt := .gCounter (c.increment amount), version := (region.version.increment nodeId).2 }
  | _, _ => region

/-- The region after a write. -/
def written (nodeId : UInt16) (data : Bytes) (timestampUs : UInt32) (region : StateRegion) : StateRegion :=
  match region.crdtType, region.crdt with
  | .lwwRegister, .lwwRegister r =>
    { region with crdt := .lwwRegister (r.set data timestampUs), version := (region.version.increment nodeId).2 }
  | _, _ => region

/-- What the node itself does to the region of a hash in a call. -/
def localEffect (P : Primitives) (p : Peer) (hash : UInt32) (call : NodeCall) (region : StateRegion) : StateRegion :=
  match call with
  | .setLww path data rank now =>
    if P.xxhash32 path.path = hash then written p.nodeId data (p.writeTime rank now) region else region
  | .incrementCounter path amount =>
    if P.xxhash32 path.path = hash then incremented p.nodeId amount region else region
  | .flush _ _ => if p.links.connMgr.hasConnections then StateRegistry.collected region else region
  | _ => region

/-- The payload comes in a frame of the packet that the call is handed, and passes its
    signature check. -/
def Handed (P : Primitives) (p : Peer) (hash : UInt32) (call : NodeCall) (data : Bytes) : Prop :=
  ∃ rank x packet from_, call = .poll rank x ∧ x.reply = some (packet,from_) ∧
    ∃ f ∈ dataFrames P packet, SignedRange P p f.payload hash data

theorem signedRange_congr {P : Primitives} {p q : Peer} (same : q.peerKeys = p.peerKeys) {payload : Bytes} {hash : UInt32}
    {data : Bytes} (signed : SignedRange P q payload hash data) : SignedRange P p payload hash data := by
  obtain ⟨content,signature,author,pk,base,shape,kind,enough,hashed,authored,bytes,known,valid⟩ := signed
  exact ⟨content,signature,author,pk,base,shape,kind,enough,hashed,authored,bytes,same ▸ known,valid⟩

/-- The frames of a packet merge signed data into a region. -/
theorem frames_region (P : Primitives) (mc : ManagedConnection) (as : List Arrival) (st : Progress) {hash : UInt32}
    {region : StateRegion} (found : st.peer.state.get hash = some region) :
    ∃ ds, (run (frameStep P mc) st as).peer.state.get hash = some { region with crdt := mergeAll region.crdt ds } ∧
      ∀ b ∈ ds, ∃ a ∈ as, SignedRange P st.peer a.frame.payload hash b := by
  induction as generalizing st region with
  | nil => exact ⟨[],found,fun b member => by cases member⟩
  | cons a as ih =>
    have keys : (frameStep P mc st a).peer.peerKeys = st.peer.peerKeys := (sameNode_frameStep P mc st a).2.2
    rcases regions_authenticated P mc st a hash with same | ⟨before,data,here,signed,after⟩
    · obtain ⟨ds,merged,all⟩ := ih (frameStep P mc st a) (same.trans found)
      refine ⟨ds,merged,fun b member => ?_⟩
      obtain ⟨a',later,signed⟩ := all b member
      exact ⟨a',List.mem_cons_of_mem _ later,signedRange_congr keys signed⟩
    · obtain rfl : region = before := Option.some.inj (found.symm.trans here)
      obtain ⟨ds,merged,all⟩ := ih (frameStep P mc st a) after
      refine ⟨data :: ds,merged,fun b member => ?_⟩
      rcases List.mem_cons.mp member with rfl | later
      · exact ⟨a,List.mem_cons_self,signed⟩
      · obtain ⟨a',listed,signed⟩ := all b later
        exact ⟨a',List.mem_cons_of_mem _ listed,signedRange_congr keys signed⟩

theorem frame_of_arrival {d : PacketDecoder} {clock : Nat → Nat} {a : Arrival} (member : a ∈ arrivals d clock) :
    a.frame ∈ d.frames := by
  obtain ⟨f,listed,rfl⟩ := List.mem_map.mp member
  exact (List.mem_zipIdx' listed).2 ▸ List.getElem_mem _

theorem put_get (s : StateRegistry) (hash hash' : UInt32) (region : StateRegion) :
    (s.put hash region).get hash' = if hash = hash' then some region else s.get hash' := by
  simp [StateRegistry.put,StateRegistry.get,ExtTreeMap.getElem?_insert]

theorem setLww_region (P : Primitives) (p : Peer) (path : StatePath) (data : Bytes) (rank : UInt16 → Nat) (now : Nat)
    {hash : UInt32} {region : StateRegion} (found : p.state.get hash = some region) :
    (p.setLww P path data rank now).1.state.get hash =
      some (if P.xxhash32 path.path = hash then written p.nodeId data (p.writeTime rank now) region else region) := by
  rw [setLww]
  dsimp only
  by_cases same : P.xxhash32 path.path = hash
  · rw [if_pos same,same,found]
    dsimp only
    split
    · next r type crdt => rw [put_get,if_pos rfl,written,type,crdt]
    · next other =>
      rw [written]
      split
      · next r type crdt => exact absurd crdt (other r type)
      · exact found
  · rw [if_neg same]
    split
    · exact found
    · split
      · exact ((put_get _ _ _ _).trans (if_neg same)).trans found
      · exact found

theorem incrementCounter_region (P : Primitives) (p : Peer) (path : StatePath) (amount : UInt64) {hash : UInt32}
    {region : StateRegion} (found : p.state.get hash = some region) :
    (p.incrementCounter P path amount).1.state.get hash =
      some (if P.xxhash32 path.path = hash then incremented p.nodeId amount region else region) := by
  rw [incrementCounter]
  dsimp only
  by_cases same : P.xxhash32 path.path = hash
  · rw [if_pos same,same,found]
    dsimp only
    split
    · next c type crdt => rw [put_get,if_pos rfl,incremented,type,crdt]
    · next other =>
      rw [incremented]
      split
      · next c type crdt => exact absurd crdt (other c type)
      · exact found
  · rw [if_neg same]
    split
    · exact found
    · split
      · exact ((put_get _ _ _ _).trans (if_neg same)).trans found
      · exact found

/-- A path is declared only once. -/
theorem declare_region (P : Primitives) (p : Peer) (path : StatePath) (type : CrdtType) (rel : Reliability) {hash : UInt32}
    {region : StateRegion} (found : p.state.get hash = some region) :
    (p.declare P path type rel).1.state.get hash = some region := by
  show (p.state.declare P path type rel).1.get hash = some region
  rw [StateRegistry.declare]
  dsimp only
  split
  · exact found
  · next absent =>
    split
    · exact found
    · have other : P.xxhash32 path.path ≠ hash := by
        rintro rfl
        rw [ExtTreeMap.contains_eq_isSome_getElem?] at absent
        rw [StateRegistry.get] at found
        rw [found] at absent
        exact absent rfl
      exact ((put_get p.state _ hash _).trans (if_neg other)).trans found

/-- A region after a call: what the node itself does, and then merges of what it is
    handed. -/
theorem apply_region (P : Primitives) (p : Peer) (call : NodeCall) {hash : UInt32} {region : StateRegion}
    (found : p.state.get hash = some region) :
    ∃ ds, (call.apply P p).state.get hash =
        some { localEffect P p hash call region with crdt := mergeAll (localEffect P p hash call region).crdt ds } ∧
      ∀ b ∈ ds, Handed P p hash call b := by
  have none : ∀ {after : Option StateRegion}, after = some (localEffect P p hash call region) →
      ∃ ds, after = some { localEffect P p hash call region with
          crdt := mergeAll (localEffect P p hash call region).crdt ds } ∧ ∀ b ∈ ds, Handed P p hash call b :=
    fun same => ⟨[],same,fun b member => by cases member⟩
  cases call with
  | declare path type rel => exact none (declare_region P p path type rel found)
  | setLww path data rank now => exact none (setLww_region P p path data rank now found)
  | incrementCounter path amount => exact none (incrementCounter_region P p path amount found)
  | setConnectionResolution remoteNodeId tier config => exact none found
  | setAccessControl enabled => exact none found
  | link x call => exact none ((congrArg (fun s => StateRegistry.get s hash) (linkCall_state P p x call)).trans found)
  | flush rank clock =>
    refine none ?_
    show (p.flush P rank clock).peer.state.get hash = _
    rw [(flush_state P p rank clock).1,localEffect]
    split
    · exact (p.state.collectDeltas_region found).1
    · exact found
  | poll rank x =>
    rcases poll_pollsInto P p rank x with ⟨same,_⟩ | ⟨data,from_,d,mc,q,reply,parsed,same,node,polled⟩
    · exact none ((congrArg (fun s => StateRegistry.get s hash) same).trans found)
    · obtain ⟨ds,merged,signed⟩ := frames_region P mc (arrivals d x.clock) ⟨q,0⟩
        ((congrArg (fun s => StateRegistry.get s hash) same).trans found)
      refine ⟨ds,?_,fun b member => ?_⟩
      · rw [NodeCall.apply,polled]
        exact merged
      · obtain ⟨a,listed,range⟩ := signed b member
        refine ⟨rank,x,data,from_,rfl,reply,a.frame,?_,signedRange_congr node.2.2 range⟩
        rw [dataFrames,parsed]
        exact frame_of_arrival listed

/-- Merges leave the type of a region. -/
theorem region_merged {p : Peer} {hash : UInt32} {region : StateRegion} {type : CrdtType} {crdt : Crdt} {ds : List Bytes}
    (typed : region.crdtType = type) (held : region.crdt = crdt)
    (merged : p.state.get hash = some { region with crdt := mergeAll region.crdt ds }) :
    ∃ region', p.state.get hash = some region' ∧ region'.crdtType = type ∧ region'.crdt = mergeAll crdt ds :=
  ⟨_,merged,typed,by rw [held]⟩

/-! ### Only deltas of nodes are merged -/

section
variable {ι : Type*} {ids : ι → UInt16} {P : Primitives} {s : Nodes ι} {e : Event ι}

/-- Nodes have their ids, and the keys that they know are keys of nodes under their
    ids. -/
structure Known (ids : ι → UInt16) (s : Nodes ι) : Prop where
  named : ∀ i, (s.peers i).nodeId = ids i
  keys : ∀ i a pk, (s.peers i).peerKeys[a]? = some pk → ∃ j, ids j = a ∧ (s.peers j).keys.publicKey = pk

theorem sameNode_step [DecidableEq ι] (P : Primitives) (s : Nodes ι) (e : Event ι) (i : ι) :
    SameNode (s.peers i) ((step P s e).peers i) := by
  by_cases same : i = e.node
  · subst same
    simpa only [step,Function.update_self] using sameNode_apply P (s.peers e.node) e.call
  · simpa only [step,Function.update_of_ne same] using SameNode.refl (s.peers i)

theorem sameNode_steps [DecidableEq ι] (P : Primitives) (s : Nodes ι) (es : List (Event ι)) (i : ι) :
    SameNode (s.peers i) ((run (step P) s es).peers i) :=
  run_invariant (I := fun s' : Nodes ι => SameNode (s.peers i) (s'.peers i))
    (fun s' e same => same.trans (sameNode_step P s' e i)) (SameNode.refl _)

theorem known_step [DecidableEq ι] (known : Known ids s) (e : Event ι) : Known ids (step P s e) where
  named i := (sameNode_step P s e i).1.trans (known.named i)
  keys i a pk found := by
    rw [(sameNode_step P s e i).2.2] at found
    obtain ⟨j,named,key⟩ := known.keys i a pk found
    exact ⟨j,named,(congrArg KeyPair.publicKey (sameNode_step P s e j).2.1).trans key⟩

/-- The two bytes of an id are different. The author stands a byte earlier in a
    snapshot than in a delta, so that a signed delta of a node whose id has twice the
    same byte may pass as a snapshot. -/
def BytesDiffer (id : UInt16) : Prop := id.toNat / 256 ≠ id.toNat % 256

instance (id : UInt16) : Decidable (BytesDiffer id) := inferInstanceAs (Decidable (id.toNat / 256 ≠ id.toNat % 256))

/-- What a delta signs, read as the head of a snapshot, names another author, unless
    the bytes of the node id agree. -/
theorem author_of_snapshot (p : Peer) (delta : PendingDelta) (apart : BytesDiffer p.nodeId) :
    readU16 ((p.deltaContent delta).drop 5) ≠ p.nodeId := by
  intro same
  have bytes : (p.deltaContent delta).drop 5 =
      delta.reliability.toByte :: UInt8.ofNat (p.nodeId.toNat / 256) :: UInt8.ofNat p.nodeId.toNat :: delta.data := rfl
  have upper := delta.reliability.toByte.toNat_lt
  have value := congrArg UInt16.toNat same
  rw [bytes,readU16,UInt16.toNat_ofNat',UInt8.toNat_ofNat'] at value
  have small := p.nodeId.toNat_lt
  rw [BytesDiffer] at apart
  omega

/-- What is merged into a region is the data of a delta that a node has collected for
    its path. -/
theorem merged_signed (known : Known ids s) (apart : ∀ j, BytesDiffer (ids j))
    (genuine : Genuine P s e) {hash : UInt32} {b : Bytes} (handed : Handed P (s.peers e.node) hash e.call b) :
    ∃ j delta, (j,delta) ∈ s.signed ∧ delta.pathHash = hash ∧ delta.data = b := by
  obtain ⟨rank,x,packet,from_,call,reply,f,member,m,signature,author,pk,base,shape,kind,_,hashed,authored,bytes,found,
    valid⟩ := handed
  obtain ⟨j,named,key⟩ := known.keys e.node author pk found
  obtain ⟨delta,signed,same⟩ := genuine rank x packet from_ call reply f member j
    (by rw [key,shape,trailer_signed,content_signed]; exact valid)
  rw [shape,content_signed] at same
  rw [same] at hashed authored bytes
  rcases kind with rfl | rfl
  · refine ⟨j,delta,signed,?_,?_⟩
    · rw [hashed]
      exact (readU32_write delta.pathHash _).symm
    · exact bytes.symm
  · refine absurd ?_ (author_of_snapshot (s.peers j) delta (known.named j ▸ apart j))
    rw [known.named j,named]
    exact authored.symm

end

/-! ### Two linked nodes -/

def pairIds (second : Bool) : UInt16 := if second then 2 else 1

def sharedPath : StatePath := ⟨ofText "/c"⟩

def sharedHash : UInt32 := plain.xxhash32 sharedPath.path

/-- Node 1 or node 2, with a region at the path, the key of the other and a connection
    to it. -/
def sharing (type : CrdtType) (second : Bool) : Peer :=
  let p := Peer.new (pairIds second) (plainKeys (if second then 2 else 1))
  let p := p.registerPeerKey (pairIds !second) (plainKeys (if second then 1 else 2)).publicKey
  let p := (p.declare plain sharedPath type .reliable).1
  { p with links := if second then Pings.answered.links else Pings.linked.links }

def linkedPair (type : CrdtType) : Nodes Bool := ⟨sharing type,[]⟩

/-- Node 1 flushes. -/
def flushing : Event Bool := ⟨false,.flush UInt16.toNat (fun _ => 0)⟩

/-- The first packet of a flush. -/
def firstPacket (p : Peer) : Bytes := ((p.flush plain UInt16.toNat (fun _ => 0)).sent.map Prod.fst).headD []

/-- Node 2 polls a packet from the address of node 1. -/
def polling (packet : Bytes) : Event Bool :=
  ⟨true,.poll UInt16.toNat { clock := fun _ => 0, reply := some (packet,⟨[],1⟩) }⟩

theorem linkedPair_known (type : CrdtType) : Known pairIds (linkedPair type) where
  named i := rfl
  keys i a pk found := by
    have known : ((linkedPair type).peers i).peerKeys = (∅ : ExtTreeMap UInt16 PublicKey).insert (pairIds !i)
        (plainKeys (if i then 1 else 2)).publicKey := rfl
    rw [known,ExtTreeMap.getElem?_insert] at found
    split at found
    · next same =>
      cases found
      refine ⟨!i,LawfulEqCmp.compare_eq_iff_eq.mp same,?_⟩
      cases i <;> rfl
    · cases found

theorem genuine_of_not_poll {ι : Type*} {P : Primitives} {s : Nodes ι} {e : Event ι}
    (other : ∀ rank x, e.call ≠ .poll rank x) :
    Genuine P s e :=
  fun rank x _ _ call => absurd call (other rank x)

/-- A packet with the deltas that node 1 has signed may be polled. -/
theorem polling_genuine {type : CrdtType} {es : List (Event Bool)} {packet : Bytes}
    (frames : dataFrames plain packet = (run (step plain) (linkedPair type) es).signed.map
      (fun d => ⟨.stateDelta,(sharing type false).buildSignedDelta plain d.2⟩))
    (author : ∀ d ∈ (run (step plain) (linkedPair type) es).signed, d.1 = false) :
    Genuine plain (run (step plain) (linkedPair type) es) (polling packet) := by
  intro rank x data from_ call reply f member j valid
  cases call
  cases reply
  rw [frames] at member
  obtain ⟨⟨i,delta⟩,listed,rfl⟩ := List.mem_map.mp member
  obtain ⟨id,keys,_⟩ := sameNode_steps plain (linkedPair type) es j
  rw [keys,buildSignedDelta,trailer_signed,content_signed,show (sharing type false).keys = plainKeys 1 from rfl,
    plain_genuine 1] at valid
  cases j with
  | false =>
    refine ⟨delta,author _ listed ▸ listed,?_⟩
    rw [buildSignedDelta,content_signed,deltaContent,deltaContent,id]
    rfl
  | true =>
    have other : (plainKeys 2).publicKey = (plainKeys 1).publicKey := valid
    exact absurd other (by decide)

end Rom.NodeNetwork
