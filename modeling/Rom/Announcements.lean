import Rom.PeerFrames
import Rom.RouteLists

/-!
What a node learns from the announcement of a route. The frame is written with the
high byte of the node id first, and `process_data_frames` reads it with the low
byte first, so the node learns the way to an id with its bytes exchanged
(`other_node_learned`), unless they are the same (`learned_iff`). The other frames
of the packet may weigh the route, but neither add nor take away one.
-/
namespace Rom.Announcements
open Std Rom.Runs Peer

/-- Weights that a route in use does not fall below. -/
structure Sane (config : RouterConfig) : Prop where
  threshold : 0 ≤ config.minRouteWeight
  increment : 0 ≤ config.successIncrement
  top : config.minRouteWeight ≤ config.maxWeight

/-- The node id whose bytes are those of another in the other order. -/
def exchanged (n : UInt16) : UInt16 := UInt16.ofNat (n.toNat / 256 + n.toNat % 256 * 256)

theorem exchanged_eq_iff (n : UInt16) : exchanged n = n ↔ n.toNat / 256 = n.toNat % 256 := by
  have bound := n.toNat_lt
  rw [← UInt16.toNat_inj,exchanged,UInt16.toNat_ofNat']
  omega

/-- The frame that announces a way to a path. -/
def announcement (pathHash : UInt32) (node : UInt16) : Frame :=
  ⟨.routeAnnounce,(RouteAnnounceFrame.mk pathHash node).encode⟩

theorem decode_announcement (pathHash : UInt32) (node : UInt16) :
    RouteAnnounceFrame.decode (announcement pathHash node).payload = some ⟨pathHash,node⟩ := by
  have hash : readU32 (RouteAnnounceFrame.mk pathHash node).encode = pathHash := readU32_write pathHash _
  have id : readU16 ((RouteAnnounceFrame.mk pathHash node).encode.drop 4) = node := readU16_write node []
  have long : ¬ (RouteAnnounceFrame.mk pathHash node).encode.length < RouteAnnounceFrame.wireSize := Nat.lt_irrefl 6
  rw [announcement,RouteAnnounceFrame.decode,if_neg long,hash,id]

theorem action_announcement (P : Primitives) (p : Peer) (nowUs : UInt32) (pathHash : UInt32) (node : UInt16) :
    p.frameAction P nowUs (announcement pathHash node) = .learnRoute pathHash (exchanged node) := by
  have bound := node.toNat_lt
  have hash : readU32 (RouteAnnounceFrame.mk pathHash node).encode = pathHash := readU32_write pathHash _
  have high : (byteAt (RouteAnnounceFrame.mk pathHash node).encode 4).toNat = node.toNat / 256 := by
    show (UInt8.ofNat (node.toNat / 256)).toNat = _
    rw [UInt8.toNat_ofNat']
    omega
  have low : (byteAt (RouteAnnounceFrame.mk pathHash node).encode 5).toNat = node.toNat % 256 := by
    show (UInt8.ofNat node.toNat).toNat = _
    rw [UInt8.toNat_ofNat']
  have long : (RouteAnnounceFrame.mk pathHash node).encode.length ≥ 6 := Nat.le_refl 6
  simp only [frameAction,announcement,long,if_true,hash,high,low]
  rfl

/-! ### What frames do to the routes -/

/-- A frame that is no announcement leaves the routes alone or weighs one of them. -/
theorem router_step (P : Primitives) (mc : ManagedConnection) (st : Progress) (a : Arrival)
    (other : a.frame.type ≠ .routeAnnounce) :
    (frameStep P mc st a).peer.router = st.peer.router ∨ ∃ pathHash,
      (frameStep P mc st a).peer.router = st.peer.router.onDeliverySuccess mc.remoteNodeId pathHash mc.conn.srttUs := by
  have learns : ∀ pathHash viaNode, arrivalAction P mc st a ≠ .learnRoute pathHash viaNode := by
    intro pathHash viaNode
    rw [arrivalAction,frameAction]
    split
    · rcases deltaAction_range P st.peer (mc.conn.elapsedUs a.now) a.frame.payload with ⟨_,_,same⟩ | ⟨_,_,same⟩ | same
      all_goals
        rw [same]
        simp
    · rcases snapshotAction_range P st.peer a.frame.payload with ⟨_,_,same⟩ | same
      all_goals
        rw [same]
        simp
    · split <;> simp
    · split <;> simp
    · next same => exact absurd same other
    · simp
  rw [frameStep]
  cases action : arrivalAction P mc st a with
  | learnRoute pathHash viaNode => exact absurd action (learns pathHash viaNode)
  | reportFailure author pathHash =>
    simp only [perform]
    split <;> exact .inl rfl
  | applyDelta pathHash data =>
    simp only [perform]
    split
    · exact .inr ⟨pathHash,rfl⟩
    · exact .inl rfl
  | _ => exact .inl rfl

theorem onDeliverySuccess_config (r : Router) (viaNode : UInt16) (pathHash rttUs : UInt32) :
    (r.onDeliverySuccess viaNode pathHash rttUs).config = r.config :=
  RouteLists.config_step r (.onDeliverySuccess viaNode pathHash rttUs)

theorem learnRoute_config (r : Router) (pathHash : UInt32) (viaNode : UInt16) :
    (r.learnRoute pathHash viaNode).config = r.config := RouteLists.config_step r (.learnRoute pathHash viaNode)

/-- There is no route. -/
def NoRoute (r : Router) : Prop := ∀ pathHash : UInt32, r.table.routes[pathHash]? = none

/-- There is one route, by way of a node, and it is heavy enough to be used. -/
def OneRoute (hash : UInt32) (node : UInt16) (r : Router) : Prop :=
  (∃ route, r.table.routes[hash]? = some [route] ∧ route.nextHopNodeId = node ∧ r.config.minRouteWeight ≤ route.weight) ∧
    ∀ pathHash, pathHash ≠ hash → r.table.routes[pathHash]? = none

theorem getRoutes_none {t : RouteTable} {pathHash : UInt32} (none : t.routes[pathHash]? = none) :
    t.getRoutes pathHash = [] := by
  rw [RouteTable.getRoutes,ExtTreeMap.getD_eq_getD_getElem?,none]
  rfl

theorem getRoutes_one {t : RouteTable} {pathHash : UInt32} {route : Route} (one : t.routes[pathHash]? = some [route]) :
    t.getRoutes pathHash = [route] := by
  rw [RouteTable.getRoutes,ExtTreeMap.getD_eq_getD_getElem?,one]
  rfl

theorem onDeliverySuccess_none {r : Router} {pathHash : UInt32} (none : r.table.routes[pathHash]? = none) (viaNode : UInt16)
    (rttUs : UInt32) : r.onDeliverySuccess viaNode pathHash rttUs = r := by
  rw [Router.onDeliverySuccess,getRoutes_none none]
  rfl

theorem clampWeight_ge {r : Router} (sane : Sane r.config) {w : ℚ} (heavy : r.config.minRouteWeight ≤ w) :
    r.config.minRouteWeight ≤ r.clampWeight w := by
  rw [Router.clampWeight]
  split
  · next light => exact (heavy.trans_lt light).le
  · split
    · exact sane.top
    · exact heavy

theorem addRoute_none {t : RouteTable} {hash : UInt32} (none : t.routes[hash]? = none) (node : UInt16) (weight : ℚ) :
    t.addRoute hash node weight = ⟨t.routes.insert hash [{ nextHopNodeId := node, weight := weight }]⟩ := by
  simp [RouteTable.addRoute,RouteTable.findRoute,none,ExtTreeMap.getD_eq_getD_getElem?]

/-- The routes after the only one of a path is replaced by a heavier one. -/
theorem replaced_routes {t : RouteTable} {hash : UInt32} {route : Route} {node : UInt16}
    (held : t.routes[hash]? = some [route])
    (via : route.nextHopNodeId = node) (weight : ℚ) (rttUs pathHash : UInt32) :
    (((t.removeRoute hash node).addRoute hash node weight).onSuccess hash node rttUs).routes[pathHash]? =
      if hash = pathHash then some [RouteTable.Route.succeed { nextHopNodeId := node, weight := weight } rttUs]
      else t.routes[pathHash]? := by
  have removed : t.removeRoute hash node = ⟨t.routes.erase hash⟩ := by
    simp [RouteTable.removeRoute,held,via]
  have first :
      [({ nextHopNodeId := node, weight := weight } : Route)].findIdx (fun r => r.nextHopNodeId == node) = 0 := by simp
  rw [removed,addRoute_none (by simp),RouteTable.onSuccess]
  simp only [ExtTreeMap.getElem?_insert_self,first]
  by_cases same : hash = pathHash
  · rw [if_pos same,← same,ExtTreeMap.getElem?_insert_self]
    rfl
  · simp [ExtTreeMap.getElem?_insert,ExtTreeMap.getElem?_erase,same]

theorem oneRoute_onDeliverySuccess {hash : UInt32} {node : UInt16} {r : Router} (sane : Sane r.config)
    (one : OneRoute hash node r) (viaNode : UInt16) (pathHash rttUs : UInt32) :
    OneRoute hash node (r.onDeliverySuccess viaNode pathHash rttUs) := by
  have before := one
  obtain ⟨⟨route,held,next,heavy⟩,others⟩ := one
  by_cases same : pathHash = hash
  · subst same
    rw [Router.onDeliverySuccess,getRoutes_one held,List.find?_singleton]
    by_cases via : route.nextHopNodeId = viaNode
    · have heavier : r.config.minRouteWeight ≤ r.clampWeight (route.weight + r.config.successIncrement) :=
        clampWeight_ge sane (heavy.trans (le_add_of_nonneg_right sane.increment))
      have replaced := replaced_routes held via (r.clampWeight (route.weight + r.config.successIncrement)) rttUs
      rw [if_pos (beq_iff_eq.mpr via)]
      refine ⟨⟨_,(replaced pathHash).trans (if_pos rfl),via.symm.trans next,heavier⟩,?_⟩
      intro other apart
      exact (replaced other).trans ((if_neg (Ne.symm apart)).trans (others other apart))
    · rw [if_neg (by simpa using via)]
      exact before
  · rw [onDeliverySuccess_none (others pathHash same)]
    exact before

theorem learnRoute_own {r : Router} {node : UInt16} (own : node = r.localNodeId) (hash : UInt32) :
    r.learnRoute hash node = r := by
  rw [Router.learnRoute,if_pos own]

theorem oneRoute_learnRoute {r : Router} (sane : Sane r.config) (empty : NoRoute r) {node : UInt16}
    (foreign : node ≠ r.localNodeId) (hash : UInt32) : OneRoute hash node (r.learnRoute hash node) := by
  have learned : r.learnRoute hash node =
      { r with table := { r.table with
          routes := r.table.routes.insert hash [{ nextHopNodeId := node, weight := r.config.minRouteWeight * 2 }] } } := by
    simp [Router.learnRoute,foreign,getRoutes_none (empty hash),addRoute_none (empty hash)]
  rw [learned]
  refine ⟨⟨{ nextHopNodeId := node, weight := r.config.minRouteWeight * 2 },by simp,rfl,?_⟩,?_⟩
  · have threshold := sane.threshold
    show r.config.minRouteWeight ≤ r.config.minRouteWeight * 2
    linarith
  · intro other apart
    simp [ExtTreeMap.getElem?_insert,Ne.symm apart,empty other]

/-! ### The hops of a path -/

theorem selectNextHops_none {r : Router} {pathHash : UInt32} (none : r.table.routes[pathHash]? = none) :
    r.selectNextHops pathHash = [] := by
  simp [Router.selectNextHops,RouteTable.routesAbove,ExtTreeMap.getD_eq_getD_getElem?,none]

theorem selectNextHops_one {r : Router} {hash : UInt32} {node : UInt16} (one : OneRoute hash node r) (pathHash : UInt32) :
    r.selectNextHops pathHash = if pathHash = hash then [node] else [] := by
  obtain ⟨⟨route,held,next,heavy⟩,others⟩ := one
  by_cases same : pathHash = hash
  · subst same
    rw [if_pos rfl,Router.selectNextHops,RouteTable.routesAbove,ExtTreeMap.getD_eq_getD_getElem?,held]
    have kept : [route].filter (fun r' => r'.weight ≥ r.config.minRouteWeight) = [route] := by simp [heavy]
    have atLeast : 1 ≤ max r.config.maxRoutesPerPath.toNat 1 := le_max_right _ _
    rw [Option.getD_some,kept,List.insertionSort_cons,List.insertionSort_nil,List.orderedInsert_nil,List.map_singleton,next]
    exact List.take_of_length_le atLeast
  · rw [if_neg same,selectNextHops_none (others pathHash same)]

/-! ### Packets -/

/-- The frames of a run of arrivals are no announcements. -/
def NoAnnouncement (as : List Arrival) : Prop := ∀ a ∈ as, a.frame.type ≠ .routeAnnounce

/-- What frames that are no announcements keep of the routes. -/
theorem run_router {P : Primitives} {mc : ManagedConnection} {I : Router → Prop}
    (keeps : ∀ r pathHash, I r → I (r.onDeliverySuccess mc.remoteNodeId pathHash mc.conn.srttUs)) {as : List Arrival}
    (others : NoAnnouncement as) {st : Progress} (start : I st.peer.router) :
    I (run (frameStep P mc) st as).peer.router := by
  induction as generalizing st with
  | nil => exact start
  | cons a as ih =>
    refine ih (fun b member => others b (List.mem_cons_of_mem _ member)) ?_
    rcases router_step P mc st a (others a List.mem_cons_self) with same | ⟨pathHash,weighed⟩
    · rw [same]
      exact start
    · rw [weighed]
      exact keeps _ _ start

theorem arrivals_split {d : PacketDecoder} {before after : List Frame} {f : Frame}
    (frames : d.frames = before ++ f :: after)
    (clock : Nat → Nat) : ∃ as now bs, arrivals d clock = as ++ ⟨f,now⟩ :: bs ∧
      as.map Arrival.frame = before ∧ bs.map Arrival.frame = after := by
  have names : ∀ (l : List Frame) (n : Nat), (l.zipIdx n).map (fun f => f.1) = l := by
    intro l n
    exact List.zipIdx_map_fst n l
  refine ⟨before.zipIdx.map (fun f => ⟨f.1,clock f.2⟩),clock before.length,
    (after.zipIdx (before.length + 1)).map (fun f => ⟨f.1,clock f.2⟩),?_,?_,?_⟩
  · rw [arrivals,frames,List.zipIdx_append,List.zipIdx_cons,List.map_append,List.map_cons,Nat.zero_add]
  · rw [List.map_map]
    exact names before 0
  · rw [List.map_map]
    exact names after _

theorem noAnnouncement_of_frames {as : List Arrival} {frames : List Frame} (same : as.map Arrival.frame = frames)
    (others : ∀ f ∈ frames, f.type ≠ .routeAnnounce) : NoAnnouncement as := by
  intro a member
  exact others a.frame (same ▸ List.mem_map_of_mem member)

/-- After the packet the node knows exactly the announced route. -/
def Learned (P : Primitives) (p : Peer) (mc : ManagedConnection) (clock : Nat → Nat) (d : PacketDecoder) (hash : UInt32)
    (node : UInt16) : Prop :=
  ∀ pathHash, (p.processDataFrames P mc clock d).1.router.selectNextHops pathHash = if pathHash = hash then [node] else []

/-- The node reads the announcement as its class does. -/
def ReadAlike (P : Primitives) (p : Peer) (hash : UInt32) (node : UInt16) : Prop :=
  ∃ f, RouteAnnounceFrame.decode (announcement hash node).payload = some f ∧
    ∀ nowUs, p.frameAction P nowUs (announcement hash node) = .learnRoute f.pathHash f.announcingNodeId

section
variable (P : Primitives) (p : Peer) (mc : ManagedConnection) (clock : Nat → Nat) (d : PacketDecoder) (hash : UInt32)
  (node : UInt16)

/-- A packet with one announcement teaches the route by way of the exchanged id,
    if that is not the node itself. -/
theorem processDataFrames_routes {before after : List Frame} (sane : Sane p.router.config) (empty : NoRoute p.router)
    (frames : d.frames = before ++ announcement hash node :: after)
    (others : ∀ f ∈ before ++ after, f.type ≠ .routeAnnounce) :
    (exchanged node = p.router.localNodeId → NoRoute (p.processDataFrames P mc clock d).1.router) ∧
      (exchanged node ≠ p.router.localNodeId →
        OneRoute hash (exchanged node) (p.processDataFrames P mc clock d).1.router) := by
  obtain ⟨as,now,bs,split,first,last⟩ := arrivals_split frames clock
  have quietFirst := noAnnouncement_of_frames first (fun f member => others f (List.mem_append_left _ member))
  have quietLast := noAnnouncement_of_frames last (fun f member => others f (List.mem_append_right _ member))
  -- nothing is weighed while there is no route
  have reached : (run (frameStep P mc) ⟨p,0⟩ as).peer.router = p.router :=
    run_router (I := fun r => r = p.router) (fun r pathHash same => by
      rw [same]
      exact onDeliverySuccess_none (empty pathHash) _ _) quietFirst rfl
  have ended : (p.processDataFrames P mc clock d).1 =
      (run (frameStep P mc) (frameStep P mc (run (frameStep P mc) ⟨p,0⟩ as) ⟨announcement hash node,now⟩) bs).peer := by
    show (run (frameStep P mc) ⟨p,0⟩ (arrivals d clock)).peer = _
    rw [split,run_append,run_cons]
  have learned : (frameStep P mc (run (frameStep P mc) ⟨p,0⟩ as) ⟨announcement hash node,now⟩).peer.router =
      p.router.learnRoute hash (exchanged node) := by
    rw [frameStep,arrivalAction,action_announcement]
    show (run (frameStep P mc) ⟨p,0⟩ as).peer.router.learnRoute hash (exchanged node) = _
    rw [reached]
  rw [ended]
  constructor
  · intro own
    refine run_router (I := NoRoute) (fun r pathHash none => ?_) quietLast ?_
    · rw [onDeliverySuccess_none (none pathHash)]
      exact none
    · rw [learned,learnRoute_own own]
      exact empty
  · intro foreign
    refine (run_router (I := fun r => Sane r.config ∧ OneRoute hash (exchanged node) r) ?_ quietLast ?_).2
    · rintro r pathHash ⟨sane,one⟩
      rw [onDeliverySuccess_config]
      exact ⟨sane,oneRoute_onDeliverySuccess sane one _ _ _⟩
    · rw [learned,learnRoute_config]
      exact ⟨sane,oneRoute_learnRoute sane empty foreign hash⟩

theorem readAlike_iff : ReadAlike P p hash node ↔ exchanged node = node := by
  constructor
  · rintro ⟨f,decoded,action⟩
    rw [decode_announcement] at decoded
    cases decoded
    have same := action 0
    rw [action_announcement] at same
    exact (FrameAction.learnRoute.inj same).2
  · intro same
    refine ⟨_,decode_announcement hash node,fun nowUs => ?_⟩
    rw [action_announcement,same]

/-- An announcement is understood exactly when both bytes of its node id are the
    same. -/
theorem learned_iff {before after : List Frame} (sane : Sane p.router.config) (empty : NoRoute p.router)
    (foreign : node ≠ p.router.localNodeId) (frames : d.frames = before ++ announcement hash node :: after)
    (others : ∀ f ∈ before ++ after, f.type ≠ .routeAnnounce) :
    (Learned P p mc clock d hash node ↔ node.toNat / 256 = node.toNat % 256) ∧
      (ReadAlike P p hash node ↔ node.toNat / 256 = node.toNat % 256) := by
  obtain ⟨none,one⟩ := processDataFrames_routes P p mc clock d hash node sane empty frames others
  rw [← exchanged_eq_iff]
  refine ⟨?_,readAlike_iff P p hash node⟩
  constructor
  · intro learned
    have hops := learned hash
    rw [if_pos rfl] at hops
    by_cases own : exchanged node = p.router.localNodeId
    · rw [selectNextHops_none (none own hash)] at hops
      cases hops
    · rw [selectNextHops_one (one own),if_pos rfl] at hops
      exact (List.cons.inj hops).1
  · intro same
    rw [same] at one
    exact selectNextHops_one (one foreign)

end

/-- The packet with one announcement. -/
def announcing (hash : UInt32) (node : UInt16) : PacketDecoder :=
  PeerFrames.onePacket .routeAnnounce (RouteAnnounceFrame.mk hash node).encode

theorem noRoute_new (nodeId : UInt16) (keys : KeyPair) : NoRoute (Peer.new nodeId keys).router :=
  fun _ => ExtTreeMap.getElem?_empty

theorem sane_default : Sane {} := ⟨by norm_num,by norm_num,by norm_num⟩

/-- Node 1 learns the way to node 257, whose bytes are the same. -/
theorem learned_same_bytes :
    Learned plain (Peer.new 1 (plainKeys 1)) plainLink (fun _ => 0) (announcing 5 257) 5 257 ∧
      ReadAlike plain (Peer.new 1 (plainKeys 1)) 5 257 := by
  have one : (announcing 5 257).frames = [] ++ announcement 5 257 :: [] := by decide +kernel
  obtain ⟨learned,alike⟩ := learned_iff plain (Peer.new 1 (plainKeys 1)) plainLink (fun _ => 0) (announcing 5 257) 5 257
    sane_default (noRoute_new 1 _) (by decide) one (by simp)
  exact ⟨learned.mpr (by decide),alike.mpr (by decide)⟩

/-- From an announcement of node 2, node 1 learns the way to node 512. -/
theorem other_node_learned :
    ((Peer.new 1 (plainKeys 1)).processDataFrames plain plainLink (fun _ => 0) (announcing 5 2)).1.router.selectNextHops 5 =
        [512] ∧
      ¬ Learned plain (Peer.new 1 (plainKeys 1)) plainLink (fun _ => 0) (announcing 5 2) 5 2 := by
  have hops : ((Peer.new 1 (plainKeys 1)).processDataFrames plain plainLink (fun _ => 0)
      (announcing 5 2)).1.router.selectNextHops 5 = [512] := by decide +kernel
  refine ⟨hops,fun learned => ?_⟩
  have expected := learned 5
  rw [hops] at expected
  revert expected
  decide

end Rom.Announcements
