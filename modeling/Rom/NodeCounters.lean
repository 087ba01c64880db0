import Rom.NodeNetwork
import Rom.CounterRuns

/-!
A counter that nodes share over a hostile network. What the calls of the nodes do to
their counters at one path is a run of the replicated counter of `Rom.CounterRuns`:
an increment is an operation, a flush hands out a delta, and what a poll merges are
deltas that were handed out (`follows_step`, `follows_run`). Hence no node ever counts
more for a node than that node itself, whatever the network does
(`nodes_never_overcount`).
-/
namespace Rom.NodeNetwork
open Std Rom.Runs Peer
open Rom.Replication (Network Object)
open Rom.Counting (added addedBy added_append)
open Rom.CounterRuns (gCounter gBegin)
open Rom.Crdt (mergeAll)

section
variable {ι : Type*} {ids : ι → UInt16} {P : Primitives} {hash : UInt32} {s : Nodes ι}

/-- The deltas of a path among those collected, as the network of replicas keeps
    them. -/
def sentFor (hash : UInt32) (signed : List (ι × PendingDelta)) : List (ι × Bytes) :=
  (signed.filter (fun e => e.2.pathHash == hash)).map (fun e => (e.1,e.2.data))

theorem mem_sentFor {signed : List (ι × PendingDelta)} {j : ι} {delta : PendingDelta} (member : (j,delta) ∈ signed)
    (here : delta.pathHash = hash) : (j,delta.data) ∈ sentFor hash signed :=
  List.mem_map.mpr ⟨(j,delta),List.mem_filter.mpr ⟨member,beq_iff_eq.mpr here⟩,rfl⟩

/-- The node's region of the hash holds the counter. -/
def HoldsCounter (hash : UInt32) (p : Peer) (c : GCounter) : Prop :=
  ∃ region, p.state.get hash = some region ∧ region.crdtType = .gCounter ∧ region.crdt = .gCounter c

/-- The counters of the nodes and their deltas are those of the replicas. -/
structure Follows (hash : UInt32) (s : Nodes ι) (t : Network ι GCounter Bytes) : Prop where
  node : ∀ i, HoldsCounter hash (s.peers i) (t.node i)
  sent : t.sent = sentFor hash s.signed

theorem mergeAll_gCounter (c : GCounter) (ds : List Bytes) :
    mergeAll (.gCounter c) ds = .gCounter (ds.foldl (fun c d => (c.merge d).1) c) := by
  induction ds generalizing c with
  | nil => rfl
  | cons d ds ih => exact ih (c.merge d).1

/-- A region holds a counter after merges too. -/
theorem holdsCounter_merged {p : Peer} {region : StateRegion} {c : GCounter} {ds : List Bytes}
    (type : region.crdtType = .gCounter) (crdt : region.crdt = .gCounter c)
    (merged : p.state.get hash = some { region with crdt := mergeAll region.crdt ds }) :
    HoldsCounter hash p (ds.foldl (fun c d => (c.merge d).1) c) := by
  rw [HoldsCounter,← mergeAll_gCounter]
  exact region_merged type crdt merged

/-- What a call adds to the counter of the path. -/
def addedFor (P : Primitives) (hash : UInt32) : NodeCall → ℕ
  | .incrementCounter path amount => if P.xxhash32 path.path = hash then amount.toNat else 0
  | _ => 0

theorem sentFor_append (l m : List (ι × PendingDelta)) : sentFor hash (l ++ m) = sentFor hash l ++ sentFor hash m := by
  rw [sentFor,List.filter_append,List.map_append]
  rfl

/-- A flush that collects hands out the delta of the counter. -/
theorem sentFor_collected (i : ι) {p : Peer} {region : StateRegion} {c : GCounter} (found : p.state.get hash = some region)
    (crdt : region.crdt = .gCounter c) :
    sentFor hash (p.state.collectDeltas.1.map (fun d => (i,d))) = ((gCounter.delta c).1.map (fun d => (i,d))).toList ∧
      (StateRegistry.collected region).crdt = .gCounter (gCounter.delta c).2 := by
  have handed := (p.state.collectDeltas_region found).2
  have chosen : sentFor hash (p.state.collectDeltas.1.map (fun d => (i,d))) =
      (StateRegistry.handed (hash,region)).map (fun d => (i,d.data)) := by
    rw [sentFor,List.filter_map,List.map_map,← handed]
    rfl
  rw [chosen,StateRegistry.handed,StateRegistry.collected]
  simp only [crdt,Crdt.hasPendingDelta,GCounter.hasPendingDelta,Crdt.delta,gCounter]
  cases dirty : c.dirty with
  | false => simp [crdt,GCounter.delta,dirty]
  | true => cases c.delta.1.isEmpty <;> simp

variable [DecidableEq ι]

/-- What the calls of a node add to the counter of the path. -/
def total (P : Primitives) (hash : UInt32) (es : List (Event ι)) (j : ι) : ℕ :=
  (es.map (fun e => if e.node = j then addedFor P hash e.call else 0)).sum

/-- Deltas that were handed out can be delivered. -/
theorem delivers (i : ι) (ds : List Bytes) (t : Network ι GCounter Bytes) (known : ∀ b ∈ ds, ∃ j, (j,b) ∈ t.sent) :
    ∃ es', (∀ j, added UInt64.toNat es' j = 0) ∧ (run (Replication.step gCounter) t es').sent = t.sent ∧
      (run (Replication.step gCounter) t es').node =
        Function.update t.node i (ds.foldl (fun c d => (c.merge d).1) (t.node i)) := by
  induction ds generalizing t with
  | nil => exact ⟨[],fun _ => rfl,rfl,(Function.update_eq_self i t.node).symm⟩
  | cons b ds ih =>
    obtain ⟨j,member⟩ := known b List.mem_cons_self
    obtain ⟨k,found⟩ := List.mem_iff_getElem?.mp member
    have first : (Replication.step gCounter t (.deliver i k)).node = Function.update t.node i ((t.node i).merge b).1 := by
      simp only [Replication.step,found]
      rfl
    have sent : (Replication.step gCounter t (.deliver i k)).sent = t.sent := by
      simp only [Replication.step,found]
    obtain ⟨es',none,same,node⟩ := ih (Replication.step gCounter t (.deliver i k))
      (fun b later => sent ▸ known b (List.mem_cons_of_mem _ later))
    refine ⟨.deliver i k :: es',?_,?_,?_⟩
    · intro j'
      rw [Counting.added_cons,none]
      rfl
    · exact same.trans sent
    · rw [run_cons,node,first,Function.update_self,Function.update_idem]
      rfl

/-- The events do to the counter of a replica, and to the deltas handed out, what the
    node itself does in the call. -/
structure LocalRun (P : Primitives) (hash : UInt32) (p : Peer) (call : NodeCall) (region : StateRegion)
    (t : Network ι GCounter Bytes) (i : ι) (es' : List (Replication.Event ι UInt64)) (c' : GCounter) : Prop where
  type : (localEffect P p hash call region).crdtType = .gCounter
  crdt : (localEffect P p hash call region).crdt = .gCounter c'
  node : (run (Replication.step gCounter) t es').node = Function.update t.node i c'
  sent : (run (Replication.step gCounter) t es').sent = t.sent ++ sentFor hash ((call.collects P p).map (fun d => (i,d)))
  added : ∀ j, added UInt64.toNat es' j = if i = j then addedFor P hash call else 0

theorem localRun_nil {t : Network ι GCounter Bytes} {i : ι} {p : Peer} {call : NodeCall} {region : StateRegion}
    (type : region.crdtType = .gCounter) (crdt : region.crdt = .gCounter (t.node i))
    (same : localEffect P p hash call region = region)
    (none : sentFor hash ((call.collects P p).map (fun d => (i,d))) = []) (zero : addedFor P hash call = 0) :
    LocalRun P hash p call region t i [] (t.node i) where
  type := same.symm ▸ type
  crdt := same.symm ▸ crdt
  node := (Function.update_eq_self i t.node).symm
  sent := by
    rw [none,List.append_nil]
    rfl
  added j := by
    rw [zero,ite_self]
    rfl

/-- What a node does to its own counter is an operation, or a delta, or nothing. -/
theorem local_step (t : Network ι GCounter Bytes) (i : ι) {p : Peer} (call : NodeCall) {region : StateRegion}
    (found : p.state.get hash = some region) (type : region.crdtType = .gCounter)
    (crdt : region.crdt = .gCounter (t.node i)) : ∃ es' c', LocalRun P hash p call region t i es' c' := by
  cases call with
  | setLww path data rank now =>
    refine ⟨_,_,localRun_nil type crdt ?_ rfl rfl⟩
    rw [localEffect,written,type]
    split <;> rfl
  | incrementCounter path amount =>
    by_cases same : P.xxhash32 path.path = hash
    · refine ⟨[.act i amount],(t.node i).increment amount,?_,?_,rfl,(List.append_nil _).symm,?_⟩
      · simp only [localEffect,if_pos same,incremented,type,crdt]
      · simp only [localEffect,if_pos same,incremented,type,crdt]
      · intro j
        rw [Counting.added_cons,addedFor,if_pos same]
        rfl
    · exact ⟨_,_,localRun_nil type crdt (if_neg same) rfl (if_neg same)⟩
  | flush rank clock =>
    have deltas : (NodeCall.flush rank clock).collects P p =
        if p.links.connMgr.hasConnections then p.state.collectDeltas.1 else [] := (flush_state P p rank clock).2
    cases connected : p.links.connMgr.hasConnections with
    | false =>
      rw [connected] at deltas
      refine ⟨_,_,localRun_nil type crdt ?_ (by rw [deltas]; rfl) rfl⟩
      rw [localEffect,connected]
      rfl
    | true =>
      rw [connected,if_pos rfl] at deltas
      obtain ⟨sent,after⟩ := sentFor_collected i found crdt
      have effect : localEffect P p hash (.flush rank clock) region = StateRegistry.collected region := by
        rw [localEffect,connected,if_pos rfl]
      refine ⟨[.emit i],(gCounter.delta (t.node i)).2,?_,?_,rfl,?_,fun j => (ite_self _).symm⟩
      · rw [effect,StateRegistry.collected]
        split <;> exact type
      · rw [effect,after]
      · rw [deltas,sent]
        rfl
  | _ => exact ⟨_,_,localRun_nil type crdt rfl rfl rfl⟩

/-- A call of a node is some events of the replicas. -/
theorem follows_step (known : Known ids s) (apart : ∀ j, BytesDiffer (ids j)) {e : Event ι}
    (genuine : Genuine P s e) {t : Network ι GCounter Bytes} (follows : Follows hash s t) :
    ∃ es', Follows hash (step P s e) (run (Replication.step gCounter) t es') ∧
      ∀ j, added UInt64.toNat es' j = if e.node = j then addedFor P hash e.call else 0 := by
  obtain ⟨region,found,type,crdt⟩ := follows.node e.node
  obtain ⟨es₁,c',own⟩ := local_step (P := P) t e.node e.call found type crdt
  obtain ⟨ds,after,handed⟩ := apply_region P (s.peers e.node) e.call found
  have signed : ∀ b ∈ ds, ∃ j, (j,b) ∈ (run (Replication.step gCounter) t es₁).sent := by
    intro b member
    obtain ⟨j,delta,listed,here,rfl⟩ := merged_signed known apart genuine (handed b member)
    refine ⟨j,?_⟩
    rw [own.sent,follows.sent]
    exact List.mem_append_left _ (mem_sentFor listed here)
  obtain ⟨es₂,none,sent,node⟩ := delivers e.node ds _ signed
  refine ⟨es₁ ++ es₂,⟨?_,?_⟩,?_⟩
  · intro i
    rw [run_append,node,own.node,Function.update_idem,Function.update_self]
    by_cases same : i = e.node
    · subst same
      rw [Function.update_self]
      apply holdsCounter_merged own.type own.crdt
      simpa only [step,Function.update_self] using after
    · rw [Function.update_of_ne same]
      simpa only [step,Function.update_of_ne same] using follows.node i
  · rw [run_append,sent,own.sent,follows.sent,step,sentFor_append]
  · intro j
    rw [added_append,own.added,none,Nat.add_zero]

theorem follows_run (known : Known ids s) (apart : ∀ j, BytesDiffer (ids j)) {es : List (Event ι)}
    (genuine : Along (step P) (Genuine P) s es) {t : Network ι GCounter Bytes} (follows : Follows hash s t) :
    ∃ es', Follows hash (run (step P) s es) (run (Replication.step gCounter) t es') ∧
      ∀ j, added UInt64.toNat es' j = total P hash es j := by
  induction es generalizing s t with
  | nil => exact ⟨[],follows,fun j => rfl⟩
  | cons e es ih =>
    obtain ⟨es₁,first,here⟩ := follows_step known apart genuine.1 follows
    obtain ⟨es₂,last,later⟩ := ih (known_step known e) genuine.2 first
    refine ⟨es₁ ++ es₂,?_,fun j => ?_⟩
    · rw [run_append]
      exact last
    · rw [added_append,here,later,total,total,List.map_cons,List.sum_cons]

/-- The nodes have declared the path as a counter, and nothing is signed yet. -/
structure Fresh (ids : ι → UInt16) (hash : UInt32) (s : Nodes ι) : Prop extends Known ids s where
  counters : ∀ i, HoldsCounter hash (s.peers i) (.new (ids i))
  unsigned : s.signed = []

/-- What a counter of the nodes says of them when they have added these totals. -/
structure CountsUpTo [Fintype ι] (ids : ι → UInt16) (totals : ι → ℕ) (i : ι) (c : GCounter) : Prop where
  own : c.countOf (ids i) = totals i
  others : ∀ j, c.countOf (ids j) ≤ totals j
  value : c.value.toNat = ∑ j, c.countOf (ids j)

/-- The counters of the nodes after a run are counters of replicas that have added the
    same. -/
theorem counted_run [Fintype ι] (distinct : Function.Injective ids)
    (apart : ∀ j, BytesDiffer (ids j)) (fresh : Fresh ids hash s) {es : List (Event ι)}
    (genuine : Along (step P) (Genuine P) s es) (small : ∑ j, total P hash es j < 2^63) :
    ∃ t, Follows hash (run (step P) s es) t ∧ Replication.MergedSent t ∧
      Counting.Counted (CounterRuns.gTally (Finset.univ.image ids)) ids (total P hash es) t := by
  have start : Follows hash s (gBegin ids) := ⟨fresh.counters,by rw [fresh.unsigned]; rfl⟩
  obtain ⟨es',follows,same⟩ := follows_run fresh.toKnown apart genuine start
  have totals : added UInt64.toNat es' = total P hash es := funext same
  rw [← totals] at small ⊢
  refine ⟨_,follows,?_,?_⟩
  · exact run_invariant (fun _ e known => Replication.mergedSent_step e known) (CounterRuns.mergedSent_start _)
  · exact Counting.counted_of_zero (CounterRuns.gTally_lawful _) distinct (CounterRuns.mergedSent_start _)
      CounterRuns.counted_gBegin (CounterRuns.added_lt small)

omit [DecidableEq ι] in
/-- What the counters of replicas say is said by those of the nodes. -/
theorem countsUpTo_of_counted [Fintype ι] (distinct : Function.Injective ids) {totals : ι → ℕ}
    (small : ∑ j, totals j < 2^63) {t : Network ι GCounter Bytes}
    (counted : Counting.Counted (CounterRuns.gTally (Finset.univ.image ids)) ids totals t) (i : ι) :
    CountsUpTo ids totals i (t.node i) := by
  refine ⟨counted.held_own i,counted.held_le i,CounterRuns.value_eq distinct (counted.good i) ?_⟩
  have bounded : ∑ j, (t.node i).countOf (ids j) ≤ ∑ j, totals j :=
    Finset.sum_le_sum (fun j _ => counted.held_le i j)
  omega

/-- No node ever counts more for a node than that node itself, which counts all that
    it has added. -/
theorem nodes_never_overcount [Fintype ι] (distinct : Function.Injective ids)
    (apart : ∀ j, BytesDiffer (ids j)) (fresh : Fresh ids hash s) {es : List (Event ι)}
    (genuine : Along (step P) (Genuine P) s es) (small : ∑ j, total P hash es j < 2^63) (i : ι) :
    ∃ c, HoldsCounter hash ((run (step P) s es).peers i) c ∧ CountsUpTo ids (total P hash es) i c := by
  obtain ⟨t,follows,_,counted⟩ := counted_run distinct apart fresh genuine small
  exact ⟨t.node i,follows.node i,countsUpTo_of_counted distinct small counted i⟩

end

/-- Node 1 counts to 5 and flushes. -/
def counting : List (Event Bool) := [⟨false,.incrementCounter sharedPath 5⟩,flushing]

/-- The packet that it sends. -/
def countPacket : Bytes := firstPacket ((sharing .gCounter false).incrementCounter plain sharedPath 5).1

theorem linkedPair_fresh : Fresh pairIds sharedHash (linkedPair .gCounter) where
  toKnown := linkedPair_known .gCounter
  counters i := ⟨_,(put_get (.new (pairIds i)) sharedHash sharedHash _).trans (if_pos rfl),rfl,rfl⟩
  unsigned := rfl

theorem counting_genuine :
    Along (step plain) (Genuine plain) (linkedPair .gCounter) (counting ++ [polling countPacket]) :=
  (along_append _).mpr ⟨⟨genuine_of_not_poll (fun _ _ call => by cases call),
    genuine_of_not_poll (fun _ _ call => by cases call),trivial⟩,
    polling_genuine (by decide +kernel) (by decide +kernel),trivial⟩

theorem nodes_never_overcount_two :
    ∃ c, HoldsCounter sharedHash
        ((run (step plain) (linkedPair .gCounter) (counting ++ [polling countPacket])).peers true) c ∧
      CountsUpTo pairIds (total plain sharedHash (counting ++ [polling countPacket])) true c :=
  nodes_never_overcount (by decide) (by decide) linkedPair_fresh counting_genuine (by decide +kernel) true

end Rom.NodeNetwork
