import Rom.RouteLists
import Mathlib.Tactic.Linarith

/-!
Runs of a router. With weights that a configuration keeps positive and below its
maximum, the routes of a path go by way of different other nodes, no path is kept
without routes, and the hops chosen are the heaviest that are heavy enough
(`route_invariants`). The number of routes of a path is not bounded, since a path
on which one route has become too light takes on every new node: it is bounded
exactly in runs where no new node is learned on such a path once it has its routes
(`routes_bounded_iff`).
-/
namespace Rom.RouteRuns
open Rom.Runs RouteTable RouteLists

def begin (localNodeId : UInt16) (config : RouterConfig) : Router := { localNodeId := localNodeId, config := config }

/-- Weights decay and are kept between bounds, and a new route is between them. -/
structure Valid (config : RouterConfig) : Prop where
  decays : 0 < config.decayFactor ∧ config.decayFactor ≤ 1
  bounds : 0 < config.minWeight ∧ config.minWeight ≤ config.maxWeight
  feedback : 0 ≤ config.successIncrement ∧ 0 ≤ config.failureDecrement
  learned : 0 < 2 * config.minRouteWeight ∧ 2 * config.minRouteWeight ≤ config.maxWeight

/-- The routes of a path go by way of different other nodes and have weights in
    bounds. -/
structure Fine (config : RouterConfig) (localNodeId : UInt16) (l : List Route) : Prop where
  distinct : (hops l).Nodup
  foreign : localNodeId ∉ hops l
  weights : ∀ route ∈ l, 0 < route.weight ∧ route.weight ≤ config.maxWeight

/-! ### Weights -/

section
variable {config : RouterConfig} {localNodeId : UInt16} {h : UInt32} {l : List Route}

theorem clamp_bounds (valid : Valid config) (w : ℚ) : 0 < clamp config w ∧ clamp config w ≤ config.maxWeight := by
  obtain ⟨positive,ordered⟩ := valid.bounds
  rw [clamp,Router.clampWeight]
  dsimp only
  split
  · exact ⟨positive,ordered⟩
  · next least =>
    split
    · exact ⟨positive.trans_le ordered,le_rfl⟩
    · next most => exact ⟨positive.trans_le (not_lt.mp least),not_lt.mp most⟩

/-- What replaces a route has a weight in bounds. -/
def Clamped (config : RouterConfig) (f : Route → Option Route) : Prop :=
  ∀ route, ∀ fresh ∈ f route, 0 < fresh.weight ∧ fresh.weight ≤ config.maxWeight

theorem clamped_strengthened (valid : Valid config) (n : UInt16) (rttUs : UInt32) :
    Clamped config (strengthened config n rttUs) := by
  rintro route fresh ⟨⟩
  exact clamp_bounds valid _

theorem clamped_weakened (valid : Valid config) (n : UInt16) : Clamped config (weakened config n) := by
  intro route fresh made
  rw [weakened,Option.mem_def] at made
  split at made
  · cases made
    exact clamp_bounds valid _
  · cases made

theorem fine_replace (fine : Fine config localNodeId l) {n : UInt16} {f : Route → Option Route} (own : Own n f)
    (clamped : Clamped config f) : Fine config localNodeId (replace l n f) where
  distinct := nodup_replace fine.distinct own
  foreign := fun member => fine.foreign (hops_replace_subset own member)
  weights := by
    intro route member
    rcases mem_replace member with kept | ⟨old,_,made⟩
    · exact fine.weights route kept
    · exact clamped old route made

theorem fine_filter (fine : Fine config localNodeId l) (n : UInt16) :
    Fine config localNodeId (l.filter (fun r => r.nextHopNodeId != n)) where
  distinct := fine.distinct.sublist (hops_filter_sublist l n)
  foreign := fun member => fine.foreign ((hops_filter_sublist l n).subset member)
  weights := fun route member => fine.weights route (List.mem_of_mem_filter member)

theorem fine_tick (valid : Valid config) (fine : Fine config localNodeId l) :
    Fine config localNodeId (l.map (fun r => { r with weight := r.weight * config.decayFactor })) where
  distinct := by
    rw [hops_tick]
    exact fine.distinct
  foreign := by
    rw [hops_tick]
    exact fine.foreign
  weights := by
    intro route member
    obtain ⟨old,listed,rfl⟩ := List.mem_map.mp member
    obtain ⟨positive,below⟩ := fine.weights old listed
    refine ⟨mul_pos positive valid.decays.1,?_⟩
    exact (mul_le_of_le_one_right positive.le valid.decays.2).trans below

/-- One call keeps the routes of a path fine. -/
theorem fine_listStep (valid : Valid config) (fine : Fine config localNodeId l) (call : Call) :
    Fine config localNodeId (listStep config localNodeId h l call) := by
  cases call with
  | announcePath pathHash => exact fine
  | learnRoute pathHash viaNode =>
    have distinct := nodup_listStep config localNodeId h fine.distinct (.learnRoute pathHash viaNode)
    rw [listStep] at distinct ⊢
    split
    · next new =>
      rw [if_pos new] at distinct
      refine ⟨distinct,?_,?_⟩
      · rw [hops_append,List.mem_append,not_or]
        exact ⟨fine.foreign,fun own => new.2.1 (List.mem_singleton.mp own).symm⟩
      · intro route member
        rcases List.mem_append.mp member with old | fresh
        · exact fine.weights route old
        · rw [List.mem_singleton.mp fresh]
          have learned := valid.learned
          rw [mul_comm] at learned
          exact learned
    · exact fine
  | removeNode nodeId => exact fine_filter fine nodeId
  | onDeliverySuccess viaNode pathHash rttUs =>
    rw [listStep]
    split
    · exact fine_replace fine (own_strengthened config viaNode rttUs) (clamped_strengthened valid viaNode rttUs)
    · exact fine
  | onDeliveryFailure viaNode pathHash =>
    rw [listStep]
    split
    · exact fine_replace fine (own_weakened config viaNode) (clamped_weakened valid viaNode)
    · exact fine
  | tick => exact fine_tick valid fine

theorem fine_run (valid : Valid config) (localNodeId : UInt16) (calls : List Call) (h : UInt32) :
    Fine config localNodeId (routesOf (run step (begin localNodeId config) calls).table h) := by
  have empty : routesOf (begin localNodeId config).table h = [] := routesOf_new h
  have first : Fine config localNodeId [] :=
    ⟨List.nodup_nil,List.not_mem_nil,fun route member => absurd member List.not_mem_nil⟩
  rw [routesOf_run calls _ distinct_new,empty]
  exact run_invariant (fun _ call fine => fine_listStep valid fine call) first

end

/-! ### Existence -/

theorem noEmpty_run (localNodeId : UInt16) (config : RouterConfig) (calls : List Call) :
    NoEmpty (run step (begin localNodeId config) calls).table := by
  have first : NoEmpty (begin localNodeId config).table := by
    intro h empty
    have absent : (begin localNodeId config).table.routes[h]? = none := Std.ExtTreeMap.getElem?_empty
    rw [absent] at empty
    cases empty
  exact run_invariant (I := fun r : Router => NoEmpty r.table) (fun _ call full => noEmpty_step full call) first

theorem hasRoute_iff (r : Router) (h : UInt32) : r.hasRoute h = true ↔ ∃ n, (r.table.findRoute h n).isSome = true := by
  have exists_iff : (∃ n, (r.table.findRoute h n).isSome = true) ↔ routesOf r.table h ≠ [] := by
    simp only [findRoute_eq,List.find?_isSome,beq_iff_eq]
    constructor
    · rintro ⟨_,route,member,_⟩
      exact List.ne_nil_of_mem member
    · intro routes
      obtain ⟨route,member⟩ := List.exists_mem_of_ne_nil _ routes
      exact ⟨route.nextHopNodeId,route,member,rfl⟩
  rw [exists_iff,Router.hasRoute,bestRoute]
  cases held : r.table.routes[h]? with
  | none =>
    rw [routesOf_of_none held]
    simp
  | some routes =>
    rw [routesOf_of_getElem held]
    cases routes with
    | nil => simp
    | cons route routes => simp

/-- After a node is removed no route goes by way of it. -/
theorem findRoute_removeNode (r : Router) (n : UInt16) (h : UInt32) : (r.removeNode n).table.findRoute h n = none := by
  rw [findRoute_eq,find_eq_none_iff,Router.removeNode,routesOf_removeNode]
  exact not_mem_filter_hops _ n

/-! ### Selection -/

/-- The routes of a path that are heavy enough. -/
def eligible (config : RouterConfig) (l : List Route) : List Route := l.filter (fun r => r.weight ≥ config.minRouteWeight)

/-- The first routes of a sorted list, as many as are chosen. -/
def taken (config : RouterConfig) (sorted : List Route) : List Route := sorted.take (max config.maxRoutesPerPath.toNat 1)

/-- Few different hops that are heavy enough, the heaviest first, and none left out
    that is heavier. -/
structure Chosen (config : RouterConfig) (routes chosen : List Route) : Prop where
  few : chosen.length ≤ config.maxRoutesPerPath.toNat
  distinct : (hops chosen).Nodup
  eligible : ∀ route ∈ chosen, route ∈ routes ∧ config.minRouteWeight ≤ route.weight
  descending : Descending chosen
  heaviest : ∀ omitted ∈ routes, config.minRouteWeight ≤ omitted.weight → omitted ∉ chosen →
    ∀ route ∈ chosen, omitted.weight ≤ route.weight

theorem selectNextHops_eq (r : Router) (h : UInt32) :
    r.selectNextHops h = hops (taken r.config (r.table.routesAbove h r.config.minRouteWeight)) := List.map_take.symm

theorem mem_eligible {config : RouterConfig} {l : List Route} {route : Route} :
    route ∈ eligible config l ↔ route ∈ l ∧ config.minRouteWeight ≤ route.weight := by
  simp [eligible,List.mem_filter]

/-- The first routes in any order by weight are chosen rightly. -/
theorem chosen_taken {config : RouterConfig} {l sorted : List Route} (atLeast : 1 ≤ config.maxRoutesPerPath.toNat)
    (distinct : (hops l).Nodup) (perm : sorted.Perm (eligible config l)) (descending : Descending sorted) :
    Chosen config l (taken config sorted) := by
  have nodup : (hops sorted).Nodup := by
    rw [hops,(perm.map Route.nextHopNodeId).nodup_iff]
    exact distinct.sublist (List.filter_sublist.map _)
  have limit : max config.maxRoutesPerPath.toNat 1 = config.maxRoutesPerPath.toNat := max_eq_left atLeast
  have front : (taken config sorted).Sublist sorted := List.take_sublist _ _
  refine ⟨?_,nodup.sublist (front.map _),?_,descending.sublist front,?_⟩
  · rw [taken,limit]
    exact List.length_take_le _ _
  · intro route member
    exact mem_eligible.mp (perm.mem_iff.mp (front.subset member))
  · intro omitted listed heavy absent route member
    have split : sorted = taken config sorted ++ sorted.drop (max config.maxRoutesPerPath.toNat 1) :=
      (List.take_append_drop _ _).symm
    have present : omitted ∈ sorted := perm.mem_iff.mpr (mem_eligible.mpr ⟨listed,heavy⟩)
    rw [split] at present descending
    have behind := (List.mem_append.mp present).resolve_left absent
    exact (List.pairwise_append.mp descending).2.2 route member omitted behind

/-- What holds of the routes in every run under a valid configuration: the routes of a
    path are fine, no path is kept without routes, there is a route where one is found,
    a node that is removed is no hop any more, and however equally heavy routes are
    sorted, the hops of a path are chosen rightly. -/
theorem route_invariants {config : RouterConfig} (valid : Valid config) (localNodeId : UInt16) (calls : List Call) :
    (∀ h, Fine config localNodeId (routesOf (run step (begin localNodeId config) calls).table h)) ∧
      NoEmpty (run step (begin localNodeId config) calls).table ∧
      (∀ h, (run step (begin localNodeId config) calls).hasRoute h = true ↔
        ∃ n, ((run step (begin localNodeId config) calls).table.findRoute h n).isSome = true) ∧
      (∀ n h, (run step (begin localNodeId config) (calls ++ [.removeNode n])).table.findRoute h n = none) ∧
      (1 ≤ config.maxRoutesPerPath.toNat → ∀ h,
        (∀ sorted, sorted.Perm (eligible config (routesOf (run step (begin localNodeId config) calls).table h)) →
          Descending sorted →
          Chosen config (routesOf (run step (begin localNodeId config) calls).table h) (taken config sorted)) ∧
        ∃ sorted, sorted.Perm (eligible config (routesOf (run step (begin localNodeId config) calls).table h)) ∧
          Descending sorted ∧
            (run step (begin localNodeId config) calls).selectNextHops h = hops (taken config sorted)) := by
  have fine := fine_run valid localNodeId calls
  have same : (run step (begin localNodeId config) calls).config = config :=
    run_invariant (I := fun r : Router => r.config = config) (fun r call same => (config_step r call).trans same) rfl
  refine ⟨fine,noEmpty_run localNodeId config calls,hasRoute_iff _,?_,fun atLeast h => ⟨?_,?_⟩⟩
  · intro n h
    rw [run_append]
    exact findRoute_removeNode _ n h
  · intro sorted perm descending
    exact chosen_taken atLeast (fine h).distinct perm descending
  · have select := selectNextHops_eq (run step (begin localNodeId config) calls) h
    rw [same] at select
    exact ⟨_,List.perm_insertionSort _ _,descending_insertionSort _,select⟩

theorem valid_default : Valid {} := by
  constructor <;> norm_num

/-- Two routes of a router with the default configuration, of which one has delivered. -/
theorem route_invariants_default :
    Valid {} ∧
      (run step (begin 1 {}) [.learnRoute 9 2,.learnRoute 9 3,.onDeliverySuccess 3 9 5,.tick]).selectNextHops 9 = [3,2] ∧
      Fine {} 1 (routesOf (run step (begin 1 {}) [.learnRoute 9 2,.learnRoute 9 3,.onDeliverySuccess 3 9 5,
        .tick]).table 9) :=
  ⟨valid_default,by decide +kernel,(route_invariants valid_default 1 _).1 9⟩

/-! ### The number of routes -/

/-- No path has more routes than the configuration allows. -/
def Within (r : Router) : Prop := ∀ h, (routesOf r.table h).length ≤ r.config.maxRoutesPerPath.toNat

/-- A new node is learned only where there is room, or where it is refused since all
    routes are heavy enough. -/
def Fits (r : Router) : Call → Prop
  | .learnRoute h n =>
    n = r.localNodeId ∨ n ∈ hops (routesOf r.table h) ∨ (routesOf r.table h).length < r.config.maxRoutesPerPath.toNat ∨
      (routesOf r.table h ≠ [] ∧ ∀ route ∈ routesOf r.table h, r.config.minRouteWeight ≤ route.weight)
  | _ => True

theorem length_replace (l : List Route) (n : UInt16) (f : Route → Option Route) : (replace l n f).length ≤ l.length := by
  cases found : l.find? (fun r => r.nextHopNodeId == n) with
  | none => rw [replace_none found]
  | some old =>
    obtain ⟨listed,own⟩ := mem_of_find found
    have fewer : (l.filter (fun r => r.nextHopNodeId != n)).length < l.length :=
      List.length_filter_lt_length_iff_exists.mpr ⟨old,listed,by simp [own]⟩
    have one : (f old).toList.length ≤ 1 := by
      cases f old with
      | none => exact Nat.zero_le 1
      | some fresh => exact le_rfl
    rw [replace_some found,List.length_append]
    omega

/-- A call other than an announcement of a new node adds no route. -/
theorem within_of_le {r : Router} {call : Call} (distinct : Distinct r.table) (within : Within r)
    (fewer : ∀ h, (listStep r.config r.localNodeId h (routesOf r.table h) call).length ≤ (routesOf r.table h).length) :
    Within (step r call) := by
  intro h
  rw [routesOf_step r call h (distinct h),config_step]
  exact (fewer h).trans (within h)

/-- A call to learn a node fits exactly if the path has room for it where it is added. -/
theorem fits_learnRoute_iff (r : Router) (h : UInt32) (n : UInt16) :
    Fits r (.learnRoute h n) ↔
      (n ≠ r.localNodeId ∧ ¬ Full r.config (routesOf r.table h) ∧ n ∉ hops (routesOf r.table h) →
        (routesOf r.table h).length < r.config.maxRoutesPerPath.toNat) := by
  rw [Fits,Full,← not_lt]
  tauto

/-- Learning a node keeps the bound exactly if there is room or the node is refused. -/
theorem within_learnRoute {r : Router} (distinct : Distinct r.table) (within : Within r) (h : UInt32) (n : UInt16) :
    Within (step r (.learnRoute h n)) ↔ Fits r (.learnRoute h n) := by
  rw [fits_learnRoute_iff]
  by_cases new : n ≠ r.localNodeId ∧ ¬ Full r.config (routesOf r.table h) ∧ n ∉ hops (routesOf r.table h)
  · rw [forall_prop_of_true new]
    have grown := routesOf_step r (.learnRoute h n) h (distinct h)
    rw [listStep,if_pos ⟨rfl,new⟩] at grown
    constructor
    · intro within
      have here := within h
      rw [grown,config_step,List.length_append,List.length_singleton] at here
      exact here
    · intro less h'
      by_cases same : h = h'
      · subst same
        rw [grown,config_step,List.length_append,List.length_singleton]
        exact less
      · rw [routesOf_step r _ h' (distinct h'),config_step,listStep,if_neg (fun all => same all.1)]
        exact within h'
  · refine iff_of_true (within_of_le distinct within fun h' => ?_) fun added => absurd added new
    rw [listStep,if_neg]
    rintro ⟨rfl,added⟩
    exact new added

theorem within_step (r : Router) (call : Call) (distinct : Distinct r.table) (within : Within r) :
    Within (step r call) ↔ Fits r call := by
  cases call with
  | learnRoute pathHash viaNode => exact within_learnRoute distinct within pathHash viaNode
  | announcePath pathHash => exact iff_of_true (within_of_le distinct within fun h => le_rfl) trivial
  | removeNode nodeId => exact iff_of_true (within_of_le distinct within fun h => List.length_filter_le _ _) trivial
  | onDeliverySuccess viaNode pathHash rttUs =>
    refine iff_of_true (within_of_le distinct within fun h => ?_) trivial
    rw [listStep]
    split
    · exact length_replace _ _ _
    · exact le_rfl
  | onDeliveryFailure viaNode pathHash =>
    refine iff_of_true (within_of_le distinct within fun h => ?_) trivial
    rw [listStep]
    split
    · exact length_replace _ _ _
    · exact le_rfl
  | tick => exact iff_of_true (within_of_le distinct within fun h => (List.length_map _).le) trivial

/-- The routes of each path stay within their number exactly in runs where no new node
    is learned on a path that has its routes and a route too light. -/
theorem routes_bounded_iff (localNodeId : UInt16) (config : RouterConfig) (calls : List Call) :
    Everywhere step Within (begin localNodeId config) calls ↔ Along step Fits (begin localNodeId config) calls := by
  have first : Within (begin localNodeId config) := by
    intro h
    have empty : routesOf (begin localNodeId config).table h = [] := routesOf_new h
    rw [empty]
    exact Nat.zero_le _
  exact everywhere_iff_along (I := fun r : Router => Distinct r.table) (fun _ call distinct => distinct_step distinct call)
    within_step distinct_new first

/-- Under the default configuration, with 3 routes for a path. One route delivers,
    fails and decays to less than 1/10; then every node that announces the path is
    learned. -/
theorem routes_unbounded :
    (routesOf (run step (begin 0 {}) [.learnRoute 9 1,.learnRoute 9 2,.learnRoute 9 3,.onDeliverySuccess 3 9 50,
        .onDeliveryFailure 3 9,.tick,.learnRoute 9 4,.learnRoute 9 5,.learnRoute 9 6]).table 9).length = 6 ∧
      ¬ Everywhere step Within (begin 0 {}) [.learnRoute 9 1,.learnRoute 9 2,.learnRoute 9 3,.onDeliverySuccess 3 9 50,
        .onDeliveryFailure 3 9,.tick,.learnRoute 9 4,.learnRoute 9 5,.learnRoute 9 6] := by
  refine ⟨by decide +kernel,fun within => ?_⟩
  have last := within.2.2.2.2.2.2.2.1 9
  exact absurd last (by decide +kernel)

end Rom.RouteRuns
