import Rom.NodeLoopback

/-!
How far a count reaches on a loopback bus. A node hands out its own count and nothing
that it has merged (`carried_own`), and what it has received it passes on to no one:
`forward_deltas` of `peer.cpp` has no caller. So a node learns of another only from
what that node sends to it. Where no flush of a node sends to the place of another,
the other never counts anything for it, whatever nodes they are both linked to
(`counts_not_forwarded`).
-/
namespace Rom.NodeNetwork
open Std Rom.Runs Peer GCounter
open Rom.Replication (Network)
open Rom.CounterRuns (gCounter gBegin)

/-! ### Deltas are of their authors -/

/-- A delta of a counter has only entries of its own node. -/
theorem carried_own {c : GCounter} {d : Bytes} (emitted : (gCounter.delta c).1 = some d) :
    ∀ e ∈ carriedEntries d, e.nodeId = c.nodeId := by
  change (if c.delta.1.isEmpty then none else some c.delta.1) = some d at emitted
  unfold GCounter.delta at emitted
  split at emitted
  · cases emitted
  · split at emitted
    · cases emitted
    · next e found =>
      obtain rfl : encodeEntries [e] = d := by simpa [encodeEntries] using emitted
      rw [carriedEntries_encode_of_lt (Nat.one_lt_two_pow (by decide))]
      intro e' member
      rw [List.mem_singleton.mp member]
      simpa using List.find?_some found

section
variable {ι : Type*} {ids : ι → UInt16}

/-- Replicas have their ids, and their deltas have only entries of their own. -/
structure OwnDeltas (ids : ι → UInt16) (t : Network ι GCounter Bytes) : Prop where
  named : ∀ k, (t.node k).nodeId = ids k
  carried : ∀ d ∈ t.sent, ∀ e ∈ carriedEntries d.2, e.nodeId = ids d.1

theorem ownDeltas_step [DecidableEq ι] (t : Network ι GCounter Bytes) (e : Replication.Event ι UInt64)
    (own : OwnDeltas ids t) :
    OwnDeltas ids (Replication.step gCounter t e) := by
  have named : ∀ {i : ι} {c : GCounter}, c.nodeId = ids i → ∀ k, (Function.update t.node i c k).nodeId = ids k := by
    intro i c same k
    by_cases here : k = i
    · rw [here,Function.update_self,same]
    · rw [Function.update_of_ne here,own.named]
  cases e with
  | act i amount => exact ⟨named ((nodeId_increment _ _).trans (own.named i)),own.carried⟩
  | emit i =>
    refine ⟨named ?_,fun d member => ?_⟩
    · show (t.node i).delta.2.nodeId = ids i
      rw [delta_state]
      exact own.named i
    · rcases List.mem_append.mp member with old | new
      · exact own.carried d old
      · obtain ⟨b,emitted,rfl⟩ := Option.map_eq_some_iff.mp (Option.mem_toList.mp new)
        intro e listed
        rw [carried_own emitted e listed,own.named]
  | deliver i k =>
    simp only [Replication.step]
    split
    · refine ⟨named ?_,own.carried⟩
      show ((t.node i).merge _).1.nodeId = ids i
      rw [merge_eq,nodeId_mergeEntries,own.named]
    · exact own

/-! ### What a call does to counts of other nodes -/

theorem countOf_increment_other (c : GCounter) (amount : UInt64) {n : UInt16} (other : n ≠ c.nodeId) :
    (c.increment amount).countOf n = c.countOf n := by
  cases found : c.find c.nodeId with
  | none =>
    have absent : c.nodeId ∉ nodesOf c.entries := (find_none_iff _ _).mp found
    have entries : (c.increment amount).entries = c.entries ++ [⟨c.nodeId,amount⟩] := by
      rw [increment,found]
    rw [countOf,entries,countIn_append_of_not_mem absent,if_neg (Ne.symm other),countOf]
  | some e => rw [countOf,increment_entries found,countIn_updated found,if_neg other,countOf]

theorem largest_of_foreign {l : List GCounterEntry} {n : UInt16} (foreign : ∀ e ∈ l, e.nodeId ≠ n) : largest l n = 0 := by
  induction l with
  | nil => rfl
  | cons e l ih =>
    rw [largest,if_neg (foreign e List.mem_cons_self),ih (fun e member => foreign e (List.mem_cons_of_mem _ member))]

theorem countOf_merges {ds : List Bytes} {n : UInt16} (foreign : ∀ b ∈ ds, ∀ e ∈ carriedEntries b, e.nodeId ≠ n)
    (c : GCounter) :
    (ds.foldl (fun c d => (c.merge d).1) c).countOf n = c.countOf n := by
  induction ds generalizing c with
  | nil => rfl
  | cons b ds ih =>
    rw [List.foldl_cons,ih (fun b member => foreign b (List.mem_cons_of_mem _ member)),countOf_merge,
      largest_of_foreign (foreign b List.mem_cons_self),Nat.max_zero]

theorem localEffect_other (P : Primitives) (p : Peer) (hash : UInt32) (call : NodeCall)
    {region : StateRegion} {c : GCounter}
    (type : region.crdtType = .gCounter) (crdt : region.crdt = .gCounter c) :
    ∃ c', (localEffect P p hash call region).crdtType = .gCounter ∧ (localEffect P p hash call region).crdt = .gCounter c' ∧
      ∀ n, n ≠ c.nodeId → c'.countOf n = c.countOf n := by
  cases call with
  | incrementCounter path amount =>
    simp only [localEffect,incremented]
    split
    · refine ⟨c.increment amount,?_,?_,fun n other => countOf_increment_other c amount other⟩
      · simp [type,crdt]
      · simp [type,crdt]
    · exact ⟨c,type,crdt,fun _ _ => rfl⟩
  | setLww path data rank now =>
    simp only [localEffect,written,type]
    split
    · exact ⟨c,type,crdt,fun _ _ => rfl⟩
    · exact ⟨c,type,crdt,fun _ _ => rfl⟩
  | flush rank clock =>
    simp only [localEffect,StateRegistry.collected]
    split
    · split
      · refine ⟨c.delta.2,type,?_,fun n _ => ?_⟩
        · simp [crdt,Crdt.delta]
        · rw [delta_state]
          rfl
      · exact ⟨c,type,crdt,fun _ _ => rfl⟩
    · exact ⟨c,type,crdt,fun _ _ => rfl⟩
  | _ => exact ⟨c,type,crdt,fun _ _ => rfl⟩

/-- A count changes only by what the node is handed. -/
theorem countOf_apply {P : Primitives} {p : Peer} {hash : UInt32} {call : NodeCall} {c : GCounter}
    (holds : HoldsCounter hash p c)
    {n : UInt16} (other : n ≠ c.nodeId) (foreign : ∀ b, Handed P p hash call b → ∀ e ∈ carriedEntries b, e.nodeId ≠ n) :
    ∃ c', HoldsCounter hash (call.apply P p) c' ∧ c'.countOf n = c.countOf n := by
  obtain ⟨region,found,type,crdt⟩ := holds
  obtain ⟨ds,merged,handed⟩ := apply_region P p call found
  obtain ⟨c',type',crdt',same⟩ := localEffect_other P p hash call type crdt
  refine ⟨_,holdsCounter_merged type' crdt' merged,?_⟩
  rw [countOf_merges (fun b member => foreign b (handed b member)),same n other]

/-! ### Runs on the bus -/

variable [DecidableEq ι] {P : Primitives} {places : ι → Endpoint} {hash : UInt32} {i j : ι} {s : OnBus ι} {e : Event ι}

/-- What a call sends if it is a flush. -/
def NodeCall.flushes (P : Primitives) (p : Peer) : NodeCall → List (Bytes × Endpoint)
  | .flush rank clock => (p.flush P rank clock).sent
  | _ => []

/-- A flush of one node sends nothing to the place of the other. -/
def Withholds (P : Primitives) (places : ι → Endpoint) (i j : ι) (s : OnBus ι) (e : Event ι) : Prop :=
  e.node = j → ∀ pkt ∈ e.call.flushes P (s.nodes.peers j), pkt.2 ≠ places i

instance (P : Primitives) (places : ι → Endpoint) (i j : ι) (s : OnBus ι) (e : Event ι) :
    Decidable (Withholds P places i j s e) :=
  inferInstanceAs (Decidable (e.node = j → ∀ pkt ∈ e.call.flushes P (s.nodes.peers j), pkt.2 ≠ places i))

/-- What waits at the place of one node is from nodes other than the other. -/
def Strange (P : Primitives) (places : ι → Endpoint) (i j : ι) (s : OnBus ι) : Prop :=
  ∀ pkt ∈ s.loopback.bus.queueAt (places i), ∀ f ∈ dataFrames P pkt.data,
    ∃ k delta, k ≠ j ∧ (k,delta) ∈ s.nodes.signed ∧ f.payload = (s.nodes.peers k).buildSignedDelta P delta

omit [DecidableEq ι] in
theorem flush_of_collects {p : Peer} {call : NodeCall} {d : PendingDelta} (collected : d ∈ call.collects P p) :
    ∃ rank clock, call = .flush rank clock := by
  cases call with
  | flush rank clock => exact ⟨rank,clock,rfl⟩
  | _ => cases collected

theorem strange_step (clean : Clean P places s) (countable : CollectsCountable P s e)
    (withholds : Withholds P places i j s e)
    (strange : Strange P places i j s) : Strange P places i j (busStep P s e) := by
  intro pkt member f inside
  rcases mem_queue_step clean.bound e member with old | ⟨reply,sent⟩
  · obtain ⟨k,delta,other,signed,payload⟩ := strange pkt old f inside
    exact ⟨k,delta,other,List.mem_append_left _ signed,payload.trans (buildSignedDelta_step P _ _ k delta).symm⟩
  · obtain ⟨d,collected,framed⟩ := (sends_carry P _ _ _ sent).2 f inside
    rw [collects_answered] at collected
    obtain ⟨rank,clock,flush⟩ := flush_of_collects collected
    refine ⟨e.node,d,?_,List.mem_append_right _ (List.mem_map.mpr ⟨d,?_,rfl⟩),?_⟩
    · rintro rfl
      have sends : (pkt.data,places i) ∈ e.call.flushes P (s.nodes.peers e.node) := by
        rw [flush] at sent ⊢
        exact sent
      exact withholds rfl _ sends rfl
    · rw [onBus,collects_answered]
      exact collected
    · rw [deltaFrame_whole (countable d collected) framed]
      exact (buildSignedDelta_step P _ _ e.node d).symm

/-- What the node polls is genuine also without the deltas of the other. -/
theorem genuine_without (clean : Clean P places s) (strange : Strange P places i j s) (here : e.node = i) :
    Genuine P { s.nodes with signed := s.nodes.signed.filter (fun d => d.1 ≠ j) } (onBus P s e) := by
  refine genuine_of_honest clean e fun pkt waited f inside => ?_
  obtain ⟨k,delta,other,signed,payload⟩ := strange pkt (here ▸ waited) f inside
  exact ⟨k,delta,List.mem_filter.mpr ⟨signed,by simpa using other⟩,payload⟩

/-- One node has nothing of the other, and nothing of it on the way. -/
structure Unaware (P : Primitives) (places : ι → Endpoint) (ids : ι → UInt16) (hash : UInt32) (i j : ι)
    (s : OnBus ι) : Prop where
  clean : Clean P places s
  known : Known ids s.nodes
  strange : Strange P places i j s
  replicas : ∃ t, Follows hash s.nodes t ∧ OwnDeltas ids t ∧ (t.node i).countOf (ids j) = 0

theorem unaware_step (distinct : Function.Injective ids) (apart : ∀ j, BytesDiffer (ids j)) (other : j ≠ i)
    (unaware : Unaware P places ids hash i j s) (calm : CollectsCountable P s e ∧ Withholds P places i j s e) :
    Unaware P places ids hash i j (busStep P s e) := by
  obtain ⟨clean,known,strange,t,follows,own,zero⟩ := unaware
  refine ⟨clean_step clean calm.1,known_step known _,strange_step clean calm.1 calm.2 strange,?_⟩
  obtain ⟨es',after,_⟩ := follows_step known apart (genuine_onBus clean e) follows
  have own' : OwnDeltas ids (run (Replication.step gCounter) t es') := run_invariant ownDeltas_step own
  refine ⟨_,after,own',?_⟩
  by_cases here : e.node = i
  · have foreign : ∀ b, Handed P (s.nodes.peers e.node) hash (onBus P s e).call b →
        ∀ x ∈ carriedEntries b, x.nodeId ≠ ids j := by
      intro b handed x listed same
      have known' : Known ids { s.nodes with signed := s.nodes.signed.filter (fun d => d.1 ≠ j) } :=
        ⟨known.named,known.keys⟩
      obtain ⟨k,delta,signed,path,rfl⟩ := merged_signed known' apart (genuine_without clean strange here) handed
      obtain ⟨signed,stranger⟩ := List.mem_filter.mp signed
      have sent : (k,delta.data) ∈ t.sent := follows.sent ▸ mem_sentFor signed path
      rw [own.carried _ sent x listed] at same
      exact of_decide_eq_true stranger (distinct same)
    have distinct' : ids j ≠ (t.node e.node).nodeId := by
      rw [own.named,here]
      exact fun same => other (distinct same)
    obtain ⟨c',holds,same⟩ := countOf_apply (follows.node e.node) distinct' foreign
    have now : HoldsCounter hash ((busStep P s e).nodes.peers e.node) c' := by
      simpa only [busStep,step,onBus,Function.update_self] using holds
    rw [← here,(after.node e.node).eq now,same,here,zero]
  · have same : (busStep P s e).nodes.peers i = s.nodes.peers i := Function.update_of_ne (Ne.symm here) _ _
    have before := follows.node i
    rw [← same] at before
    rw [(after.node i).eq before,zero]

/-- A node that another never sends a flush to never counts anything for it. -/
theorem counts_not_forwarded (distinct : Function.Injective ids) (apart : ∀ j, BytesDiffer (ids j))
    (fresh : Fresh ids hash s.nodes) (secure : Secure P s.nodes) (bound : Bound places s.loopback)
    (empty : ∀ ep, s.loopback.bus.queueAt ep = []) (other : j ≠ i) {es : List (Event ι)}
    (calm : Along (busStep P) (fun s e => CollectsCountable P s e ∧ Withholds P places i j s e) s es) :
    ∃ c, HoldsCounter hash ((run (busStep P) s es).nodes.peers i) c ∧ c.countOf (ids j) = 0 := by
  have strange : Strange P places i j s := by
    intro pkt member
    rw [empty] at member
    cases member
  have begun : Follows hash s.nodes (gBegin ids) := ⟨fresh.counters,by rw [fresh.unsigned]; rfl⟩
  have own : OwnDeltas ids (gBegin ids) := ⟨fun k => rfl,fun d member => by cases member⟩
  have start : Unaware P places ids hash i j s :=
    ⟨clean_of_empty secure bound empty,fresh.toKnown,strange,gBegin ids,begun,own,countOf_new _ _⟩
  have ended : Unaware P places ids hash i j (run (busStep P) s es) :=
    calm.run_invariant (fun s e unaware calm => unaware_step distinct apart other unaware calm) start
  obtain ⟨t,follows,_,zero⟩ := ended.replicas
  exact ⟨t.node i,follows.node i,zero⟩

end

/-! ### Three nodes in a row -/

inductive RowNode where
  | first
  | middle
  | last
  deriving DecidableEq

def rowIds : RowNode → UInt16
  | .first => 1
  | .middle => 2
  | .last => 3

def rowPlaces (k : RowNode) : Endpoint := ⟨[],rowIds k⟩

def rowKeys (k : RowNode) : KeyPair := plainKeys (rowIds k).toUInt8

/-- A node that knows the keys of all three and has declared the counter. -/
def rowPeer (k : RowNode) : Peer :=
  let p := [.first,.middle,.last].foldl (fun p n => p.registerPeerKey (rowIds n) (rowKeys n).publicKey)
    (Peer.new (rowIds k) (rowKeys k))
  (p.declare plain sharedPath .gCounter .reliable).1

def rowOnBus : OnBus RowNode := ⟨⟨rowPeer,[]⟩,⟨∅,fun k => ⟨rowPlaces k,true⟩⟩⟩

def idle : Exchange := { clock := fun _ => 0 }

/-- The first two and the last two nodes connect; the first counts to 5 and flushes, the
    second polls, counts 1 and flushes, and the third polls. -/
def rowCalls : List (Event RowNode) :=
  [⟨.first,.link idle (.connectStart (rowPlaces .middle))⟩,⟨.middle,.link idle (.acceptNode 1)⟩,
    ⟨.first,.link idle .connectPoll⟩,
    ⟨.middle,.link idle (.connectStart (rowPlaces .last))⟩,⟨.last,.link idle (.acceptNode 2)⟩,
    ⟨.middle,.link idle .connectPoll⟩,
    ⟨.first,.incrementCounter sharedPath 5⟩,⟨.first,.flush UInt16.toNat (fun _ => 0)⟩,⟨.middle,.poll UInt16.toNat idle⟩,
    ⟨.middle,.incrementCounter sharedPath 1⟩,⟨.middle,.flush UInt16.toNat (fun _ => 0)⟩,⟨.last,.poll UInt16.toNat idle⟩]

theorem rowIds_injective : Function.Injective rowIds := by
  intro i j same
  revert same
  cases i <;> cases j <;> decide

theorem rowIds_apart (k : RowNode) : BytesDiffer (rowIds k) := by
  cases k <;> decide

theorem row_known : Known rowIds rowOnBus.nodes where
  named k := rfl
  keys k a pk found := by
    have keys : (rowOnBus.nodes.peers k).peerKeys =
        (((∅ : ExtTreeMap UInt16 PublicKey).insert (rowIds .first) (rowKeys .first).publicKey).insert
        (rowIds .middle) (rowKeys .middle).publicKey).insert (rowIds .last) (rowKeys .last).publicKey := rfl
    simp only [keys,ExtTreeMap.getElem?_insert,LawfulEqCmp.compare_eq_iff_eq,ExtTreeMap.getElem?_empty] at found
    split at found
    · next same => exact ⟨.last,same,Option.some.inj found⟩
    · split at found
      · next same => exact ⟨.middle,same,Option.some.inj found⟩
      · split at found
        · next same => exact ⟨.first,same,Option.some.inj found⟩
        · cases found

theorem row_fresh : Fresh rowIds sharedHash rowOnBus.nodes where
  toKnown := row_known
  counters k := ⟨_,(put_get (.new (rowIds k)) sharedHash sharedHash _).trans (if_pos rfl),rfl,rfl⟩
  unsigned := rfl

theorem row_secure : Secure plain rowOnBus.nodes where
  genuine k := plain_genuine (rowIds k).toUInt8
  distinct i j same := by
    have keys : ∀ k, (rowOnBus.nodes.peers k).keys = rowKeys k := fun k => rfl
    rw [keys,keys] at same
    revert same
    cases i <;> cases j <;> decide

/-- The third node counts nothing for the first. -/
theorem counts_not_forwarded_row :
    ∃ c, HoldsCounter sharedHash ((run (busStep plain) rowOnBus rowCalls).nodes.peers .last) c ∧
      c.countOf (rowIds .first) = 0 := by
  have bound : Bound rowPlaces rowOnBus.loopback := rfl
  exact counts_not_forwarded rowIds_injective rowIds_apart row_fresh row_secure bound
    (fun ep => LoopbackBus.queueAt_empty ep)
    (by decide : RowNode.first ≠ .last) (by decide +kernel)

end Rom.NodeNetwork
