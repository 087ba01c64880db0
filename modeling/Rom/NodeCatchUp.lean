import Rom.NodeCounters

/-!
How a count arrives. A flush sends what it has collected on every established
connection without a filter (`flush_sends`), and a node that polls the packet of a node
it is linked to merges each delta in it that it can verify (`poll_merges`). So once a
node that has flushed after its last increment gets one packet through, the other node
counts it exactly, whatever else the network does before, between and after
(`flushed_count_arrives`).
-/
namespace Rom.NodeNetwork
open Std Rom.Runs Peer
open Rom.PeerSend (deltaFrame openCall Open sendDeltasTo_frames openCall_signed deltaFrame_small deltaCall_open)
open Rom.Pings (LinkedTo poll_linked)
open Rom.Counting (added)
open Rom.Crdt (mergeAll)

/-! ### What a flush sends -/

/-- All packets so far are for this address, where the connection leads. -/
def AllTo (remote : Endpoint) (st : Sending) : Prop :=
  st.mc.conn.remote = remote ∧ ∀ pkt ∈ st.sent, pkt.2 = remote

theorem allTo_sendPacket {P : Primitives} {clock : Nat → Nat} {remote : Endpoint} {st : Sending} (all : AllTo remote st) :
    AllTo remote (st.sendPacket P clock) := by
  refine ⟨all.1,fun pkt member => ?_⟩
  rcases List.mem_append.mp member with old | new
  · exact all.2 pkt old
  · rw [List.mem_singleton.mp new]
    exact all.1

theorem allTo_sendDelta {P : Primitives} {p : Peer} {clock : Nat → Nat} {remote : Endpoint} {st : Sending}
    (all : AllTo remote st) (d : PendingDelta) : AllTo remote (st.sendDelta P p clock d) := by
  rw [Sending.sendDelta]
  dsimp only
  split
  · exact all
  · exact allTo_sendPacket all

theorem allTo_sendDeltasTo (P : Primitives) (p : Peer) (mc : ManagedConnection) (clock : Nat → Nat)
    (deltas : List PendingDelta) : AllTo mc.conn.remote (p.sendDeltasTo P mc clock deltas) := by
  have all : ∀ enc, AllTo mc.conn.remote (run (Sending.sendDelta P p clock) { enc := enc, mc := mc } deltas) :=
    fun enc => run_invariant (fun _ d all => allTo_sendDelta all d) ⟨rfl,fun pkt member => by cases member⟩
  rw [sendDeltasTo]
  split
  · exact allTo_sendPacket (all _)
  · exact all _

/-- A packet that carries the frame goes to the address. -/
def SendsFrame (P : Primitives) (remote : Endpoint) (f : Frame) (sent : List (Bytes × Endpoint)) : Prop :=
  ∃ pkt, (pkt,remote) ∈ sent ∧ f ∈ dataFrames P pkt

section
variable {P : Primitives} {p : Peer} {clock : Nat → Nat} {deltas : List PendingDelta}

theorem sendDeltasTo_sends (mc : ManagedConnection) (clock : Nat → Nat) {d : PendingDelta} (member : d ∈ deltas) {f : Frame}
    (framed : deltaFrame P p d = some f) :
    SendsFrame P mc.conn.remote f (p.sendDeltasTo P mc clock deltas).sent := by
  have carried : f ∈ (p.sendDeltasTo P mc clock deltas).sent.flatMap (fun pkt => dataFrames P pkt.1) := by
    rw [(sendDeltasTo_frames P p mc clock deltas).1]
    exact List.mem_filterMap.mpr ⟨d,member,framed⟩
  obtain ⟨⟨pkt,remote⟩,sent,inside⟩ := List.mem_flatMap.mp carried
  have here : remote = mc.conn.remote := (allTo_sendDeltasTo P p mc clock deltas).2 _ sent
  exact ⟨pkt,here ▸ sent,inside⟩

/-- A visit adds to what is sent, and makes no filter. -/
theorem visit_grows (P : Primitives) (clock : Nat → Nat) (deltas : List PendingDelta) (st : Flushing)
    (e : UInt16 × ManagedConnection) :
    (∃ more, (st.visit P clock deltas e).sent = st.sent ++ more) ∧
      ∀ id : UInt16, st.peer.deltaFilters[id]? = none → (st.visit P clock deltas e).peer.deltaFilters[id]? = none := by
  rw [Flushing.visit]
  split
  · exact ⟨⟨[],(List.append_nil _).symm⟩,fun _ none => none⟩
  · split
    · exact ⟨⟨_,rfl⟩,fun _ none => none⟩
    · next f held =>
      have kept : ∀ (f' : DeltaFilter) (id : UInt16), st.peer.deltaFilters[id]? = none →
          (st.peer.deltaFilters.insert e.2.remoteNodeId f')[id]? = none := by
        intro f' id none
        rw [ExtTreeMap.getElem?_insert,if_neg,none]
        intro same
        rw [LawfulEqCmp.compare_eq_iff_eq.mp same,none] at held
        cases held
      dsimp only
      split
      · exact ⟨⟨[],(List.append_nil _).symm⟩,kept _⟩
      · exact ⟨⟨_,rfl⟩,kept _⟩

theorem sendsFrame_append {remote : Endpoint} {f : Frame} {sent : List (Bytes × Endpoint)}
    (sends : SendsFrame P remote f sent) (more : List (Bytes × Endpoint)) : SendsFrame P remote f (sent ++ more) := by
  obtain ⟨pkt,member,inside⟩ := sends
  exact ⟨pkt,List.mem_append_left _ member,inside⟩

/-- The visit of a connection without a filter sends every delta there. -/
theorem visit_sends {st : Flushing} (same : SameNode p st.peer) {e : UInt16 × ManagedConnection}
    (connected : e.2.conn.state = .connected) (unfiltered : st.peer.deltaFilters[e.2.remoteNodeId]? = none)
    {d : PendingDelta} (member : d ∈ deltas) {f : Frame} (framed : deltaFrame P p d = some f) :
    SendsFrame P e.2.conn.remote f (st.visit P clock deltas e).sent := by
  rw [Flushing.visit,if_neg (not_not.mpr connected),unfiltered]
  obtain ⟨pkt,sent,inside⟩ := sendDeltasTo_sends e.2 (fun i => clock (st.readings + i)) member
    ((deltaFrame_congr P same d).trans framed)
  exact ⟨pkt,List.mem_append_right _ sent,inside⟩

/-- Every connection of the table gets its turn. -/
theorem visits_send {links : List (UInt16 × ManagedConnection)} {e : UInt16 × ManagedConnection} (listed : e ∈ links)
    (connected : e.2.conn.state = .connected) {d : PendingDelta} (member : d ∈ deltas) {f : Frame}
    (framed : deltaFrame P p d = some f) {st : Flushing} (same : SameNode p st.peer)
    (unfiltered : st.peer.deltaFilters[e.2.remoteNodeId]? = none) :
    SendsFrame P e.2.conn.remote f (run (Flushing.visit P clock deltas) st links).sent := by
  obtain ⟨first,last,rfl⟩ := List.append_of_mem listed
  have arrived : SameNode p (run (Flushing.visit P clock deltas) st first).peer ∧
      (run (Flushing.visit P clock deltas) st first).peer.deltaFilters[e.2.remoteNodeId]? = none :=
    run_invariant (I := fun st : Flushing => SameNode p st.peer ∧ st.peer.deltaFilters[e.2.remoteNodeId]? = none)
      (fun st e' here => ⟨here.1.trans (sameNode_visit P clock deltas st e'),(visit_grows P clock deltas st e').2 _ here.2⟩)
      ⟨same,unfiltered⟩
  rw [run_append,run_cons]
  refine run_invariant (I := fun st : Flushing => SendsFrame P e.2.conn.remote f st.sent) ?_
    (visit_sends arrived.1 connected arrived.2 member framed)
  intro st e' sends
  obtain ⟨more,sent⟩ := (visit_grows P clock deltas st e').1
  rw [sent]
  exact sendsFrame_append sends more

/-- A flush sends each collected delta that fits on each established connection that
    has no filter. -/
theorem flush_sends (rank : UInt16 → Nat) {id : UInt16} {mc : ManagedConnection}
    (link : p.links.connMgr.get id = some mc) (connected : mc.conn.state = .connected)
    (unfiltered : p.deltaFilters[mc.remoteNodeId]? = none) {d : PendingDelta} (member : d ∈ p.state.collectDeltas.1)
    {f : Frame} (framed : deltaFrame P p d = some f) :
    SendsFrame P mc.conn.remote f (p.flush P rank clock).sent := by
  have some : p.links.connMgr.hasConnections = true :=
    Pings.hasConnections_of_linked ⟨mc,link,connected,rfl⟩
  have full : p.state.collectDeltas.1.isEmpty = false := by
    rw [List.isEmpty_eq_false_iff]
    exact List.ne_nil_of_mem member
  have listed : (id,mc) ∈ p.links.connMgr.inOrder rank := (ConnectionManager.mem_inOrder _ rank (id,mc)).mpr link
  simp only [Peer.flush,some,full,Bool.not_true,Bool.false_eq_true,if_false]
  exact visits_send listed connected member framed (SameNode.refl p) unfiltered

end

/-! ### What a poll merges -/

/-- A frame that is applied is among what is merged. -/
theorem frames_region_of_call {P : Primitives} {p : Peer} (mc : ManagedConnection) {as : List Arrival} {a : Arrival}
    (member : a ∈ as) {hash : UInt32} {b : Bytes} (called : openCall P p a.frame = some (hash,b)) {st : Progress}
    (same : Open p st.peer) {region : StateRegion} (found : st.peer.state.get hash = some region) :
    ∃ ds, (run (frameStep P mc) st as).peer.state.get hash = some { region with crdt := mergeAll region.crdt ds } ∧
      b ∈ ds := by
  obtain ⟨first,last,rfl⟩ := List.append_of_mem member
  obtain ⟨ds₁,before,_⟩ := frames_region P mc first st found
  have same' : Open p (run (frameStep P mc) st first).peer :=
    run_invariant (I := fun st : Progress => Open p st.peer) (fun _ a same => same.frameStep a) same
  have action : arrivalAction P mc (run (frameStep P mc) st first) a = .applyDelta hash b := by
    have call := (deltaCall_open same' (mc.conn.elapsedUs a.now) a.frame).trans called
    rw [arrivalAction]
    cases action : Peer.frameAction P (run (frameStep P mc) st first).peer (mc.conn.elapsedUs a.now) a.frame with
    | applyDelta hash' b' =>
      rw [action] at call
      cases call
      rfl
    | _ =>
      rw [action] at call
      cases call
  have merged : (frameStep P mc (run (frameStep P mc) st first) a).peer.state.get hash =
      some { region with crdt := (Crdt.merge (mergeAll region.crdt ds₁) b).1 } := by
    have regions := frameStep_regions P mc (run (frameStep P mc) st first) a hash
    rw [action] at regions
    dsimp only at regions
    rw [if_pos rfl] at regions
    refine regions.trans ?_
    rw [StateRegistry.get] at before
    rw [before]
    rfl
  obtain ⟨ds₂,after,_⟩ := frames_region P mc last _ merged
  refine ⟨ds₁ ++ b :: ds₂,?_,List.mem_append_right _ List.mem_cons_self⟩
  rw [run_append,run_cons,after,Crdt.mergeAll_append]
  rfl

/-- A linked node without access control merges every delta in the packet that it can
    verify. -/
theorem poll_merges {P : Primitives} {b : Peer} {id : UInt16} {origin : Endpoint} (linked : LinkedTo b id origin)
    (noControl : b.accessControl = false) (rank : UInt16 → Nat) {x : Exchange} {pkt : Bytes}
    (arrived : x.reply = some (pkt,origin)) {f : Frame} (inside : f ∈ dataFrames P pkt) {hash : UInt32} {data : Bytes}
    (called : openCall P b f = some (hash,data)) {region : StateRegion} (found : b.state.get hash = some region) :
    ∃ ds, (b.poll P rank x).peer.state.get hash = some { region with crdt := mergeAll region.crdt ds } ∧ data ∈ ds := by
  rw [dataFrames,dataPacket] at inside
  cases parsed : PacketDecoder.ofPacket pkt with
  | none => simp [parsed] at inside
  | some d =>
    by_cases accepted : d.verifyChecksum P = true ∧ d.header.packetType = .data
    · have frame : f ∈ d.frames := by simpa only [parsed,if_pos accepted] using inside
      obtain ⟨e,_,_,polled⟩ := poll_linked linked rank arrived parsed accepted.1
      rw [← PeerSend.arrivals_frames d x.clock] at frame
      obtain ⟨a,listed,rfl⟩ := List.mem_map.mp frame
      rw [polled,receive]
      simp only [accepted.2]
      exact frames_region_of_call _ listed called ⟨rfl,noControl⟩ found
    · simp [parsed,accepted] at inside

/-! ### A count arrives -/

/-- Merging deltas raises counts, to what each of them carries at least. -/
theorem count_merged (c : GCounter) (ds : List Bytes) (n : UInt16) :
    c.countOf n ≤ (ds.foldl (fun c d => (c.merge d).1) c).countOf n ∧
      ∀ b ∈ ds, GCounter.largest (GCounter.carriedEntries b) n ≤
        (ds.foldl (fun c d => (c.merge d).1) c).countOf n := by
  induction ds generalizing c with
  | nil => exact ⟨le_rfl,fun b member => by cases member⟩
  | cons d ds ih =>
    obtain ⟨grown,carried⟩ := ih (c.merge d).1
    rw [GCounter.countOf_merge] at grown
    refine ⟨(le_max_left _ _).trans grown,fun b member => ?_⟩
    rcases List.mem_cons.mp member with rfl | later
    · exact (le_max_right _ _).trans grown
    · exact carried b later

section
variable {ι : Type*} [DecidableEq ι] {ids : ι → UInt16} {P : Primitives} {hash : UInt32} {s : Nodes ι}

theorem HoldsCounter.eq {p : Peer} {c c' : GCounter} (holds : HoldsCounter hash p c) (holds' : HoldsCounter hash p c') :
    c = c' := by
  obtain ⟨region,found,_,crdt⟩ := holds
  obtain ⟨region',found',_,crdt'⟩ := holds'
  cases found.symm.trans found'
  cases crdt.symm.trans crdt'
  rfl

theorem total_append (es fs : List (Event ι)) (j : ι) :
    total P hash (es ++ fs) j = total P hash es j + total P hash fs j := by
  rw [total,List.map_append,List.sum_append]
  rfl

/-- Calls that add nothing at a node leave its total. -/
theorem total_append_quiet {es fs : List (Event ι)} {j : ι} (quiet : ∀ e ∈ fs, e.node = j → addedFor P hash e.call = 0) :
    total P hash (es ++ fs) j = total P hash es j := by
  have none : total P hash fs j = 0 := by
    refine List.sum_eq_zero fun n member => ?_
    obtain ⟨e,listed,rfl⟩ := List.mem_map.mp member
    by_cases here : e.node = j
    · rw [if_pos here,quiet e listed here]
    · rw [if_neg here]
  rw [total_append,none,Nat.add_zero]

variable [Fintype ι]

/-- The totals of a part of a run are small where those of the run are. -/
theorem small_part {es fs : List (Event ι)} (small : ∑ j, total P hash (es ++ fs) j < 2^63) :
    ∑ j, total P hash es j < 2^63 := by
  refine Nat.lt_of_le_of_lt (Finset.sum_le_sum fun j _ => ?_) small
  rw [total_append]
  exact Nat.le_add_right _ _

/-- Counts of nodes never go down. -/
theorem count_grows (distinct : Function.Injective ids) (apart : ∀ j, BytesDiffer (ids j))
    (fresh : Fresh ids hash s) {es fs : List (Event ι)} (genuine : Along (step P) (Genuine P) s (es ++ fs))
    (small : ∑ j, total P hash (es ++ fs) j < 2^63) {i : ι} {c c' : GCounter}
    (before : HoldsCounter hash ((run (step P) s es).peers i) c)
    (after : HoldsCounter hash ((run (step P) s (es ++ fs)).peers i) c') (n : UInt16) : c.countOf n ≤ c'.countOf n := by
  obtain ⟨first,last⟩ := (along_append fs).mp genuine
  obtain ⟨t,follows,known,counted⟩ := counted_run distinct apart fresh first (small_part small)
  obtain ⟨fs',follows',same⟩ := follows_run
    (run_invariant (fun _ e known => known_step known e) fresh.toKnown) apart last follows
  have room : ∀ i, total P hash es i + added UInt64.toNat fs' i < 2^64 := by
    intro i
    rw [same,← total_append]
    have part : total P hash (es ++ fs) i ≤ ∑ j, total P hash (es ++ fs) j :=
      Finset.single_le_sum (fun j _ => Nat.zero_le (total P hash (es ++ fs) j)) (Finset.mem_univ i)
    omega
  rw [run_append] at after
  rw [before.eq (follows.node i),after.eq (follows'.node i)]
  exact Counting.held_run (CounterRuns.gTally_lawful _) distinct known counted room i n

/-- The node has something new at the path, can sign, and holds an established
    connection to the address that has no filter. -/
structure Sends (P : Primitives) (hash : UInt32) (p : Peer) (remote : Endpoint) : Prop where
  pending : ∃ region, p.state.get hash = some region ∧ region.crdt.hasPendingDelta = true
  signs : ∀ m, P.verify p.keys.publicKey (P.sign p.keys.secretKey m) m = true
  linked : ∃ id mc, p.links.connMgr.get id = some mc ∧ mc.conn.state = .connected ∧ mc.conn.remote = remote ∧
    p.deltaFilters[mc.remoteNodeId]? = none

/-- One node takes what comes from an address, and knows the key of the other. -/
structure Hears (s : Nodes ι) (i j : ι) (origin : Endpoint) : Prop where
  linked : ∃ id, LinkedTo (s.peers i) id origin
  key : (s.peers i).peerKeys[(s.peers j).nodeId]? = some (s.peers j).keys.publicKey
  noControl : (s.peers i).accessControl = false

omit [DecidableEq ι] [Fintype ι] in
/-- A flush sends a frame that any node which knows the key applies as the count. -/
theorem flush_sends_count {S : Finset UInt16} {p : Peer} {remote : Endpoint} (sends : Sends P hash p remote) {c : GCounter}
    (holds : HoldsCounter hash p c) (sound : GCounter.Sound S c) (rank : UInt16 → Nat) (clock : Nat → Nat) :
    ∃ f b, SendsFrame P remote f (p.flush P rank clock).sent ∧
      GCounter.largest (GCounter.carriedEntries b) c.nodeId = c.countOf c.nodeId ∧
      ∀ receiver : Peer, receiver.peerKeys[p.nodeId]? = some p.keys.publicKey →
        openCall P receiver f = some (hash,b) := by
  obtain ⟨region,found,_,crdt⟩ := holds
  have dirty : c.dirty = true := by
    obtain ⟨region',found',pending⟩ := sends.pending
    cases found.symm.trans found'
    rw [crdt] at pending
    exact pending
  have bytes : c.delta.1 = GCounter.encodeEntries (c.find c.nodeId).toList := by
    rw [GCounter.delta_bytes sound,if_pos dirty]
  have full : c.delta.1.isEmpty = false := by
    rw [bytes]
    rfl
  obtain ⟨d,member,here,data⟩ : ∃ d ∈ p.state.collectDeltas.1, d.pathHash = hash ∧ d.data = c.delta.1 := by
    have handed := (p.state.collectDeltas_region found).2
    have listed : (⟨hash,region.crdtType,region.reliability,c.delta.1⟩ : PendingDelta) ∈
        StateRegistry.handed (hash,region) := by
      simp [StateRegistry.handed,crdt,Crdt.hasPendingDelta,GCounter.hasPendingDelta,Crdt.delta,dirty,full]
    rw [← handed] at listed
    exact ⟨_,(List.mem_filter.mp listed).1,rfl,rfl⟩
  have few : d.data.length ≤ PeerSend.maxDeltaSize := by
    obtain ⟨e,own,_⟩ := GCounter.find_own sound
    rw [data,bytes,own]
    exact (GCounter.encodeEntries_length [e]).trans_le (show 1 + 1 * GCounter.entryWireSize ≤ _ by decide)
  obtain ⟨id,mc,link,connected,rfl,unfiltered⟩ := sends.linked
  refine ⟨_,c.delta.1,flush_sends rank link connected unfiltered member (deltaFrame_small few),?_,?_⟩
  · exact (CounterRuns.gTally_lawful S).carried_own c _ sound (if_neg (by rw [full]; exact Bool.false_ne_true))
  · intro receiver known
    rw [openCall_signed sends.signs known,here,data]

/-- What a flush sends carries the total of the node. -/
theorem flush_sends_total (distinct : Function.Injective ids) (apart : ∀ j, BytesDiffer (ids j))
    (fresh : Fresh ids hash s) {before : List (Event ι)} (genuine : Along (step P) (Genuine P) s before)
    (small : ∑ j, total P hash before j < 2^63) {j : ι} {remote : Endpoint}
    (sends : Sends P hash ((run (step P) s before).peers j) remote) (rank : UInt16 → Nat) (clock : Nat → Nat) :
    ∃ f b, SendsFrame P remote f (Peer.flush P ((run (step P) s before).peers j) rank clock).sent ∧
      GCounter.largest (GCounter.carriedEntries b) (ids j) = total P hash before j ∧
      ∀ receiver : Peer, receiver.peerKeys[((run (step P) s before).peers j).nodeId]? =
          some ((run (step P) s before).peers j).keys.publicKey → openCall P receiver f = some (hash,b) := by
  obtain ⟨t,follows,_,counted⟩ := counted_run distinct apart fresh genuine small
  obtain ⟨f,b,sent,carried,called⟩ := flush_sends_count sends (follows.node j) (counted.good j) rank clock
  have own : (t.node j).nodeId = ids j := counted.own j
  have held : (t.node j).countOf (ids j) = total P hash before j := counted.held_own j
  rw [own,held] at carried
  exact ⟨f,b,sent,carried,called⟩

/-- A delta that a node has polled counts from then on. -/
theorem count_of_polled (distinct : Function.Injective ids) (apart : ∀ j, BytesDiffer (ids j))
    (fresh : Fresh ids hash s) {upTo after : List (Event ι)} {i : ι} {rank : UInt16 → Nat} {x : Exchange}
    (genuine : Along (step P) (Genuine P) s (upTo ++ ⟨i,.poll rank x⟩ :: after))
    (small : ∑ j, total P hash (upTo ++ ⟨i,.poll rank x⟩ :: after) j < 2^63) {j : ι} {origin : Endpoint}
    (hears : Hears (run (step P) s upTo) i j origin) {pkt : Bytes} (arrived : x.reply = some (pkt,origin)) {f : Frame}
    (inside : f ∈ dataFrames P pkt) {b : Bytes}
    (called : openCall P ((run (step P) s upTo).peers i) f = some (hash,b)) {c : GCounter}
    (holds : HoldsCounter hash ((run (step P) s (upTo ++ ⟨i,.poll rank x⟩ :: after)).peers i) c) (n : UInt16) :
    GCounter.largest (GCounter.carriedEntries b) n ≤ c.countOf n := by
  obtain ⟨t,follows,_,_⟩ := counted_run distinct apart fresh ((along_append _).mp genuine).1 (small_part small)
  obtain ⟨region,found,type,crdt⟩ := follows.node i
  obtain ⟨id,linked⟩ := hears.linked
  obtain ⟨ds,polled,listed⟩ := poll_merges linked hears.noControl rank arrived inside called found
  have reached : HoldsCounter hash ((run (step P) s (upTo ++ [⟨i,.poll rank x⟩])).peers i)
      (ds.foldl (fun c d => (c.merge d).1) (t.node i)) := by
    apply holdsCounter_merged type crdt
    rw [run_append]
    simpa only [run_cons,run_nil,step,NodeCall.apply,Function.update_self] using polled
  rw [List.append_cons] at genuine small holds
  exact ((count_merged _ ds n).2 b listed).trans (count_grows distinct apart fresh genuine small reached holds n)

/-- Once a node has flushed after its last increment and a packet of the flush has
    been polled by a node that hears it, that node counts it exactly from then on. -/
theorem flushed_count_arrives (distinct : Function.Injective ids)
    (apart : ∀ j, BytesDiffer (ids j)) (fresh : Fresh ids hash s) {before : List (Event ι)}
    (genuine : Along (step P) (Genuine P) s before) (small : ∑ j, total P hash before j < 2^63) {j : ι} {remote : Endpoint}
    (sends : Sends P hash ((run (step P) s before).peers j) remote) (rank : UInt16 → Nat) (clock : Nat → Nat) :
    ∃ pkt, (pkt,remote) ∈ (Peer.flush P ((run (step P) s before).peers j) rank clock).sent ∧
      ∀ (between after : List (Event ι)) (i : ι) (rank' : UInt16 → Nat) (x : Exchange) (origin : Endpoint),
        let upTo := before ++ ⟨j,.flush rank clock⟩ :: between
        let whole := upTo ++ ⟨i,.poll rank' x⟩ :: after
        Along (step P) (Genuine P) s whole → ∑ j, total P hash whole j < 2^63 →
        (∀ e ∈ between ++ after, e.node = j → addedFor P hash e.call = 0) →
        Hears (run (step P) s upTo) i j origin → x.reply = some (pkt,origin) →
        ∃ c, HoldsCounter hash ((run (step P) s whole).peers i) c ∧ c.countOf (ids j) = total P hash whole j := by
  obtain ⟨f,b,⟨pkt,sent,inside⟩,carried,called⟩ := flush_sends_total distinct apart fresh genuine small sends rank clock
  refine ⟨pkt,sent,?_⟩
  intro between after i rank' x origin upTo whole genuine small quiet hears arrived
  obtain ⟨t,follows,_,counted⟩ := counted_run distinct apart fresh genuine small
  have same : SameNode ((run (step P) s before).peers j) ((run (step P) s upTo).peers j) := by
    rw [show run (step P) s upTo =
      run (step P) (run (step P) s before) (⟨j,.flush rank clock⟩ :: between) from run_append _]
    exact sameNode_steps P _ _ j
  have last : total P hash whole j = total P hash before j := by
    rw [show whole = before ++ (⟨j,.flush rank clock⟩ :: between ++ ⟨i,.poll rank' x⟩ :: after) by simp [whole,upTo]]
    refine total_append_quiet fun e member here => ?_
    simp only [List.cons_append,List.mem_cons,List.mem_append] at member
    rcases member with rfl | inside | rfl | outside
    · rfl
    · exact quiet e (List.mem_append_left _ inside) here
    · rfl
    · exact quiet e (List.mem_append_right _ outside) here
  -- the count is at least what the packet carries, and never above the total
  refine ⟨t.node i,follows.node i,Nat.le_antisymm (counted.held_le i j) ?_⟩
  calc total P hash whole j = GCounter.largest (GCounter.carriedEntries b) (ids j) := last.trans carried.symm
    _ ≤ (t.node i).countOf (ids j) :=
        count_of_polled distinct apart fresh genuine small hears arrived inside
          (called _ (by rw [← same.1,← same.2.1]; exact hears.key)) (follows.node i) (ids j)

end

theorem counting_sends : Sends plain sharedHash
    ((run (step plain) (linkedPair .gCounter) (counting.take 1)).peers false) ⟨[],2⟩ where
  pending := by
    have dirty : (((run (step plain) (linkedPair .gCounter) (counting.take 1)).peers false).state.get sharedHash).map
        (fun r => r.crdt.hasPendingDelta) = some true := by decide +kernel
    exact Option.map_eq_some_iff.mp dirty
  signs m := by
    rw [(sameNode_steps plain (linkedPair .gCounter) (counting.take 1) false).2.1]
    exact (plain_genuine 1 m _).mpr rfl
  linked := by
    have held : (((run (step plain) (linkedPair .gCounter) (counting.take 1)).peers false).links.connMgr.get 0).map
        (fun mc => (mc.conn.state,mc.conn.remote,mc.remoteNodeId)) = some (.connected,⟨[],2⟩,0) := by decide +kernel
    obtain ⟨mc,found,same⟩ := Option.map_eq_some_iff.mp held
    obtain ⟨connected,remote,node⟩ := Prod.mk.inj same |>.imp_right Prod.mk.inj
    exact ⟨0,mc,found,connected,remote,node ▸ by decide +kernel⟩

/-- What the table of a node says of the connection. -/
theorem hears_of_held {n : Nodes Bool} {i j : Bool} {origin : Endpoint}
    (held : ((n.peers i).links.connMgr.get 0).map (fun mc => (mc.conn.state,mc.conn.remote)) = some (.connected,origin))
    (key : (n.peers i).peerKeys[(n.peers j).nodeId]? = some (n.peers j).keys.publicKey)
    (noControl : (n.peers i).accessControl = false) : Hears n i j origin := by
  obtain ⟨mc,found,same⟩ := Option.map_eq_some_iff.mp held
  exact ⟨⟨0,mc,found,congrArg Prod.fst same,congrArg Prod.snd same⟩,key,noControl⟩

theorem counting_hears : Hears (run (step plain) (linkedPair .gCounter) counting) true false ⟨[],1⟩ :=
  hears_of_held (by decide +kernel) (by decide +kernel) (by decide +kernel)

theorem flushed_count_arrives_two :
    ∃ c, HoldsCounter sharedHash
        ((run (step plain) (linkedPair .gCounter) (counting ++ [polling countPacket])).peers true) c ∧
      c.countOf 1 = 5 := by
  have genuine : Along (step plain) (Genuine plain) (linkedPair .gCounter) (counting.take 1) :=
    ((along_append (counting.drop 1 ++ [polling countPacket])).mp counting_genuine).1
  obtain ⟨pkt,sent,arrives⟩ := flushed_count_arrives (by decide) (by decide) linkedPair_fresh genuine (by decide +kernel)
    counting_sends UInt16.toNat (fun _ => 0)
  have only : (Peer.flush plain ((run (step plain) (linkedPair .gCounter) (counting.take 1)).peers false)
      UInt16.toNat (fun _ => 0)).sent =
      [(countPacket,⟨[],2⟩)] := by decide +kernel
  rw [only,List.mem_singleton] at sent
  cases sent
  exact arrives [] [] true UInt16.toNat _ ⟨[],1⟩ counting_genuine (by decide +kernel) (fun e member => by cases member)
    counting_hears rfl

end Rom.NodeNetwork
