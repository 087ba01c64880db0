import Rom.Routing
import Rom.Runs
import Rom.Keyed

/-!
Routes path by path. A table is seen as the list of routes of each path, empty for
a path without an entry (`routesOf`). As long as a path has no two routes by way of
one node, which stays so, each call of the router does to the list of a path what
`listStep` says, whatever the order of equally heavy routes in a sorted list
(`routesOf_step`). Feedback takes a route out and puts a fresh one at the end.
-/
namespace Rom.RouteLists
open Std Rom.Runs RouteTable

/-- The routes of a path, in the order in which they were added. -/
def routesOf (t : RouteTable) (pathHash : UInt32) : List Route := t.routes.getD pathHash []

def hops (l : List Route) : List UInt16 := l.map Route.nextHopNodeId

/-- No path is kept without routes. -/
def NoEmpty (t : RouteTable) : Prop := ∀ pathHash : UInt32, t.routes[pathHash]? ≠ some []

/-! ### Lists of routes -/

/-- Changes the first route by way of a node. -/
def adjusted (l : List Route) (n : UInt16) (f : Route → Route) : List Route :=
  l.modify (l.findIdx (fun r => r.nextHopNodeId == n)) f

theorem mem_hops {l : List Route} {n : UInt16} : n ∈ hops l ↔ ∃ route ∈ l, route.nextHopNodeId = n := List.mem_map

theorem find_eq_none_iff (l : List Route) (n : UInt16) :
    l.find? (fun r => r.nextHopNodeId == n) = none ↔ n ∉ hops l := Keyed.find_eq_none_iff Route.nextHopNodeId l n

theorem mem_of_find {l : List Route} {n : UInt16} {route : Route}
    (found : l.find? (fun r => r.nextHopNodeId == n) = some route) :
    route ∈ l ∧ route.nextHopNodeId = n := Keyed.of_find found

theorem not_mem_filter_hops (l : List Route) (n : UInt16) : n ∉ hops (l.filter (fun r => r.nextHopNodeId != n)) := by
  rw [mem_hops]
  rintro ⟨route,member,own⟩
  simp [own] at member

/-! ### Tables -/

theorem routesOf_eq (t : RouteTable) (h : UInt32) : routesOf t h = t.routes[h]?.getD [] :=
  ExtTreeMap.getD_eq_getD_getElem?

theorem routesOf_of_getElem {t : RouteTable} {h : UInt32} {l : List Route} (held : t.routes[h]? = some l) :
    routesOf t h = l := by
  rw [routesOf_eq,held]
  rfl

theorem routesOf_of_none {t : RouteTable} {h : UInt32} (none : t.routes[h]? = none) : routesOf t h = [] := by
  rw [routesOf_eq,none]
  rfl

theorem routesOf_insert (t : RouteTable) (h : UInt32) (l : List Route) (h' : UInt32) :
    routesOf ⟨t.routes.insert h l⟩ h' = if h = h' then l else routesOf t h' := by
  rw [routesOf_eq,routesOf_eq,ExtTreeMap.getElem?_insert]
  simp only [LawfulEqCmp.compare_eq_iff_eq]
  split
  · rfl
  · rfl

theorem noEmpty_insert {t : RouteTable} (full : NoEmpty t) (h : UInt32) {l : List Route} (routes : l ≠ []) :
    NoEmpty ⟨t.routes.insert h l⟩ := by
  intro h' empty
  rw [ExtTreeMap.getElem?_insert] at empty
  split at empty
  · exact routes (Option.some.inj empty)
  · exact full h' empty

theorem findRoute_eq (t : RouteTable) (h : UInt32) (n : UInt16) :
    t.findRoute h n = (routesOf t h).find? (fun r => r.nextHopNodeId == n) := by
  rw [findRoute]
  cases held : t.routes[h]? with
  | none => rw [routesOf_of_none held,List.find?_nil]
  | some routes => rw [routesOf_of_getElem held]

theorem routesOf_addRoute (t : RouteTable) (h : UInt32) (n : UInt16) (w : ℚ) (h' : UInt32) :
    routesOf (t.addRoute h n w) h' =
      if h = h' ∧ n ∉ hops (routesOf t h') then routesOf t h' ++ [{ nextHopNodeId := n, weight := w }]
      else routesOf t h' := by
  rw [addRoute,findRoute_eq]
  cases found : (routesOf t h).find? (fun r => r.nextHopNodeId == n) with
  | some route =>
    have present : n ∈ hops (routesOf t h) := mem_hops.mpr ⟨route,mem_of_find found⟩
    rw [if_neg]
    rintro ⟨rfl,absent⟩
    exact absent present
  | none =>
    have absent := (find_eq_none_iff _ n).mp found
    show routesOf ⟨t.routes.insert h (routesOf t h ++ [_])⟩ h' = _
    rw [routesOf_insert]
    by_cases same : h = h'
    · subst same
      rw [if_pos rfl,if_pos ⟨rfl,absent⟩]
    · rw [if_neg same,if_neg (fun both => same both.1)]

theorem noEmpty_addRoute {t : RouteTable} (full : NoEmpty t) (h : UInt32) (n : UInt16) (w : ℚ) :
    NoEmpty (t.addRoute h n w) := by
  rw [addRoute]
  split
  · exact full
  · exact noEmpty_insert full h (List.append_ne_nil_of_right_ne_nil _ (List.cons_ne_nil _ _))

theorem routesOf_removeRoute (t : RouteTable) (h : UInt32) (n : UInt16) (h' : UInt32) :
    routesOf (t.removeRoute h n) h' =
      if h = h' then (routesOf t h').filter (fun r => r.nextHopNodeId != n) else routesOf t h' := by
  rw [removeRoute]
  cases held : t.routes[h]? with
  | none =>
    dsimp only
    split
    · next same =>
      subst same
      rw [routesOf_of_none held,List.filter_nil]
    · rfl
  | some routes =>
    have here := routesOf_of_getElem held
    dsimp only
    split
    · next all =>
      split
      · next same =>
        subst same
        rw [here,List.filter_eq_self.mpr (List.length_filter_eq_length_iff.mp all)]
      · rfl
    · split
      · next empty =>
        rw [routesOf_eq,ExtTreeMap.getElem?_erase]
        simp only [LawfulEqCmp.compare_eq_iff_eq]
        split
        · next same =>
          subst same
          rw [here,List.isEmpty_iff.mp empty]
          rfl
        · exact (routesOf_eq t h').symm
      · rw [routesOf_insert]
        split
        · next same =>
          subst same
          rw [here]
        · rfl

theorem noEmpty_removeRoute {t : RouteTable} (full : NoEmpty t) (h : UInt32) (n : UInt16) :
    NoEmpty (t.removeRoute h n) := by
  rw [removeRoute]
  split
  · exact full
  · dsimp only
    split
    · exact full
    · split
      · intro h' empty
        rw [ExtTreeMap.getElem?_erase] at empty
        split at empty
        · cases empty
        · exact full h' empty
      · next some => exact noEmpty_insert full h (fun empty => some (List.isEmpty_iff.mpr empty))

theorem getElem_removeNode (t : RouteTable) (n : UInt16) (h : UInt32) :
    (t.removeNode n).routes[h]? =
      (t.routes[h]?.map (fun routes => routes.filter (fun r => r.nextHopNodeId != n))).filter
        (fun routes => !routes.isEmpty) := by
  rw [removeNode,ExtTreeMap.getElem?_filter',ExtTreeMap.getElem?_map]

theorem routesOf_removeNode (t : RouteTable) (n : UInt16) (h : UInt32) :
    routesOf (t.removeNode n) h = (routesOf t h).filter (fun r => r.nextHopNodeId != n) := by
  rw [routesOf_eq,routesOf_eq,getElem_removeNode]
  cases t.routes[h]? with
  | none => rfl
  | some routes =>
    rw [Option.map_some,Option.filter_some,Option.getD_some]
    split
    · rfl
    · next empty =>
      rw [Bool.not_eq_true',Bool.not_eq_false] at empty
      exact (List.isEmpty_iff.mp empty).symm

theorem noEmpty_removeNode (t : RouteTable) (n : UInt16) : NoEmpty (t.removeNode n) := by
  intro h empty
  rw [getElem_removeNode,Option.filter_eq_some_iff] at empty
  exact absurd empty.2 (by simp)

theorem routesOf_decayAll (t : RouteTable) (decayFactor : ℚ) (h : UInt32) :
    routesOf (t.decayAll decayFactor) h = (routesOf t h).map (fun r => { r with weight := r.weight * decayFactor }) := by
  rw [routesOf_eq,routesOf_eq,decayAll,ExtTreeMap.getElem?_map]
  cases t.routes[h]? with
  | none => rfl
  | some routes => rfl

theorem noEmpty_decayAll {t : RouteTable} (full : NoEmpty t) (decayFactor : ℚ) : NoEmpty (t.decayAll decayFactor) := by
  intro h empty
  rw [decayAll,ExtTreeMap.getElem?_map,Option.map_eq_some_iff] at empty
  obtain ⟨routes,held,none⟩ := empty
  exact full h (held.trans (congrArg some (List.map_eq_nil_iff.mp none)))

theorem adjusted_ne_nil {l : List Route} (routes : l ≠ []) (n : UInt16) (f : Route → Route) : adjusted l n f ≠ [] := by
  rw [← List.length_pos_iff] at routes ⊢
  rwa [adjusted,List.length_modify]

/-- What `on_success` and `on_failure` have in common: the route of a path by way of
    a node changes. -/
def adjust (t : RouteTable) (h : UInt32) (n : UInt16) (f : Route → Route) : RouteTable :=
  match t.routes[h]? with
  | none => t
  | some routes => ⟨t.routes.insert h (adjusted routes n f)⟩

/-- The route with one more failure. -/
def failed (route : Route) : Route := { route with failureCount := route.failureCount + 1 }

theorem hops_failed (l : List Route) (n : UInt16) : hops (adjusted l n failed) = hops l :=
  Keyed.map_modify Route.nextHopNodeId (f := failed) (fun _ => rfl) l n

theorem filter_failed (l : List Route) (n : UInt16) :
    (adjusted l n failed).filter (fun r => r.nextHopNodeId != n) = l.filter (fun r => r.nextHopNodeId != n) :=
  Keyed.filter_modify Route.nextHopNodeId (f := failed) (fun _ => rfl) l n

theorem find_failed (l : List Route) (n : UInt16) :
    (adjusted l n failed).find? (fun r => r.nextHopNodeId == n) = (l.find? (fun r => r.nextHopNodeId == n)).map failed :=
  (Keyed.find_modify Route.nextHopNodeId (f := failed) (fun _ => rfl) l n n).trans (if_pos rfl)

theorem onSuccess_eq (t : RouteTable) (h : UInt32) (n : UInt16) (rttUs : UInt32) :
    t.onSuccess h n rttUs = adjust t h n (fun route => Route.succeed route rttUs) := rfl

theorem onFailure_eq (t : RouteTable) (h : UInt32) (n : UInt16) : t.onFailure h n = adjust t h n failed := rfl

theorem routesOf_adjust (t : RouteTable) (h : UInt32) (n : UInt16) (f : Route → Route) (h' : UInt32) :
    routesOf (adjust t h n f) h' = if h = h' then adjusted (routesOf t h') n f else routesOf t h' := by
  rw [adjust]
  cases held : t.routes[h]? with
  | none =>
    dsimp only
    split
    · next same =>
      subst same
      rw [routesOf_of_none held]
      rfl
    · rfl
  | some routes =>
    dsimp only
    rw [routesOf_insert]
    split
    · next same =>
      subst same
      rw [routesOf_of_getElem held]
    · rfl

theorem noEmpty_adjust {t : RouteTable} (full : NoEmpty t) (h : UInt32) (n : UInt16) (f : Route → Route) :
    NoEmpty (adjust t h n f) := by
  rw [adjust]
  cases held : t.routes[h]? with
  | none => exact full
  | some routes =>
    exact noEmpty_insert full h (adjusted_ne_nil (fun empty => full h (held.trans (congrArg some empty))) n f)

theorem perm_getRoutes (t : RouteTable) (h : UInt32) : (t.getRoutes h).Perm (routesOf t h) := List.perm_insertionSort _ _

/-- Heaviest first. -/
def Descending (l : List Route) : Prop := l.Pairwise (fun a b => a.weight ≥ b.weight)

theorem descending_insertionSort (l : List Route) : Descending (l.insertionSort (fun a b => a.weight ≥ b.weight)) := by
  have : Std.Total (fun a b : Route => a.weight ≥ b.weight) := ⟨fun a b => le_total b.weight a.weight⟩
  have : IsTrans Route (fun a b => a.weight ≥ b.weight) := ⟨fun _ _ _ first second => ge_trans first second⟩
  exact List.pairwise_insertionSort _ l

/-! ### One call -/

inductive Call where
  | announcePath (pathHash : UInt32)
  | learnRoute (pathHash : UInt32) (viaNode : UInt16)
  | removeNode (nodeId : UInt16)
  | onDeliverySuccess (viaNode : UInt16) (pathHash : UInt32) (rttUs : UInt32)
  | onDeliveryFailure (viaNode : UInt16) (pathHash : UInt32)
  | tick
  deriving DecidableEq, Repr

def step (r : Router) : Call → Router
  | .announcePath pathHash => r.announcePath pathHash
  | .learnRoute pathHash viaNode => r.learnRoute pathHash viaNode
  | .removeNode nodeId => r.removeNode nodeId
  | .onDeliverySuccess viaNode pathHash rttUs => r.onDeliverySuccess viaNode pathHash rttUs
  | .onDeliveryFailure viaNode pathHash => r.onDeliveryFailure viaNode pathHash
  | .tick => r.tick

/-- A path has its routes, and all of them are heavy enough. -/
def Full (config : RouterConfig) (l : List Route) : Prop :=
  config.maxRoutesPerPath.toNat ≤ l.length ∧ l ≠ [] ∧ ∀ route ∈ l, config.minRouteWeight ≤ route.weight

instance (config : RouterConfig) (l : List Route) : Decidable (Full config l) := inferInstanceAs (Decidable (_ ∧ _ ∧ _))

/-- `clamp_weight` of a router with this configuration. -/
def clamp (config : RouterConfig) (w : ℚ) : ℚ := Router.clampWeight { localNodeId := 0, config := config } w

/-- A route by way of a node gives way to what is made of it, at the end of the list. -/
def replace (l : List Route) (n : UInt16) (f : Route → Option Route) : List Route :=
  match l.find? (fun r => r.nextHopNodeId == n) with
  | none => l
  | some route => l.filter (fun r => r.nextHopNodeId != n) ++ (f route).toList

def strengthened (config : RouterConfig) (n : UInt16) (rttUs : UInt32) (route : Route) : Option Route :=
  some (Route.succeed { nextHopNodeId := n, weight := clamp config (route.weight + config.successIncrement) } rttUs)

def weakened (config : RouterConfig) (n : UInt16) (route : Route) : Option Route :=
  if route.weight - config.failureDecrement ≥ config.minWeight then
    some { nextHopNodeId := n, weight := clamp config (route.weight - config.failureDecrement) }
  else none

/-- What a call does to the routes of a path. -/
def listStep (config : RouterConfig) (localNodeId : UInt16) (h : UInt32) (l : List Route) : Call → List Route
  | .announcePath _ => l
  | .learnRoute pathHash viaNode =>
    if pathHash = h ∧ viaNode ≠ localNodeId ∧ ¬ Full config l ∧ viaNode ∉ hops l then
      l ++ [{ nextHopNodeId := viaNode, weight := config.minRouteWeight * 2 }]
    else l
  | .removeNode nodeId => l.filter (fun r => r.nextHopNodeId != nodeId)
  | .onDeliverySuccess viaNode pathHash rttUs =>
    if pathHash = h then replace l viaNode (strengthened config viaNode rttUs) else l
  | .onDeliveryFailure viaNode pathHash => if pathHash = h then replace l viaNode (weakened config viaNode) else l
  | .tick => l.map (fun r => { r with weight := r.weight * config.decayFactor })

/-- The last of the sorted routes is the lightest. -/
theorem full_iff (config : RouterConfig) {l sorted : List Route} (perm : sorted.Perm l) (descending : Descending sorted) :
    (decide (sorted.length ≥ config.maxRoutesPerPath.toNat) &&
      sorted.getLast?.any (fun worst => worst.weight ≥ config.minRouteWeight)) = true ↔ Full config l := by
  rw [Bool.and_eq_true,decide_eq_true_iff,Full,perm.length_eq]
  refine and_congr_right fun _ => ?_
  cases last : sorted.getLast? with
  | none =>
    rw [List.getLast?_eq_none_iff.mp last] at perm
    simp [List.nil_perm.mp perm]
  | some worst =>
    obtain ⟨others,rfl⟩ := List.getLast?_eq_some_iff.mp last
    have member : worst ∈ l := perm.mem_iff.mp (List.mem_append_right _ (List.mem_singleton_self worst))
    rw [Option.any_some,decide_eq_true_iff]
    constructor
    · intro heavy
      refine ⟨List.ne_nil_of_mem member,fun route listed => ?_⟩
      rcases List.mem_append.mp (perm.mem_iff.mpr listed) with other | last
      · exact ge_trans ((List.pairwise_append.mp descending).2.2 route other worst (List.mem_singleton_self worst)) heavy
      · rw [List.mem_singleton.mp last]
        exact heavy
    · rintro ⟨_,all⟩
      exact all worst member

theorem routesOf_learnRoute (r : Router) (p : UInt32) (n : UInt16) (h : UInt32) :
    routesOf (r.learnRoute p n).table h = listStep r.config r.localNodeId h (routesOf r.table h) (.learnRoute p n) := by
  have crowded := full_iff r.config (perm_getRoutes r.table p) (descending_insertionSort _)
  rw [listStep,Router.learnRoute]
  by_cases own : n = r.localNodeId
  · rw [if_pos own,if_neg (fun all => all.2.1 own)]
  · rw [if_neg own]
    dsimp only
    by_cases full : Full r.config (routesOf r.table p)
    · rw [if_pos (crowded.mpr full),if_neg]
      rintro ⟨rfl,_,room,_⟩
      exact room full
    · rw [if_neg (fun all => full (crowded.mp all)),routesOf_addRoute]
      refine if_congr ⟨?_,fun all => ⟨all.1,all.2.2.2⟩⟩ rfl rfl
      rintro ⟨rfl,absent⟩
      exact ⟨rfl,own,full,absent⟩

theorem replace_none {l : List Route} {n : UInt16} {f : Route → Option Route}
    (none : l.find? (fun r => r.nextHopNodeId == n) = none) : replace l n f = l := by
  rw [replace,none]

theorem replace_some {l : List Route} {n : UInt16} {f : Route → Option Route} {route : Route}
    (found : l.find? (fun r => r.nextHopNodeId == n) = some route) :
    replace l n f = l.filter (fun r => r.nextHopNodeId != n) ++ (f route).toList := by
  rw [replace,found]

/-- A route taken out and added again with another weight. -/
theorem routesOf_readded (t : RouteTable) (p : UInt32) (n : UInt16) (w : ℚ) (h : UInt32) :
    routesOf ((t.removeRoute p n).addRoute p n w) h =
      if p = h then (routesOf t h).filter (fun r => r.nextHopNodeId != n) ++ [{ nextHopNodeId := n, weight := w }]
      else routesOf t h := by
  rw [routesOf_addRoute,routesOf_removeRoute]
  by_cases same : p = h
  · rw [if_pos same,if_pos same,if_pos ⟨same,not_mem_filter_hops _ n⟩]
  · rw [if_neg same,if_neg same,if_neg (fun both => same both.1)]

theorem routesOf_onDeliverySuccess (r : Router) (n : UInt16) (p rttUs h : UInt32)
    (distinct : (hops (routesOf r.table h)).Nodup) :
    routesOf (r.onDeliverySuccess n p rttUs).table h =
      listStep r.config r.localNodeId h (routesOf r.table h) (.onDeliverySuccess n p rttUs) := by
  rw [listStep,Router.onDeliverySuccess]
  by_cases same : p = h
  · subst same
    rw [if_pos rfl,Keyed.find_perm Route.nextHopNodeId (perm_getRoutes r.table p) distinct]
    cases found : (routesOf r.table p).find? (fun route => route.nextHopNodeId == n) with
    | none => rw [replace_none found]
    | some route =>
      rw [replace_some found,strengthened,Option.toList_some]
      dsimp only
      rw [onSuccess_eq,routesOf_adjust,if_pos rfl,routesOf_readded,if_pos rfl,
        adjusted,Keyed.modify_append Route.nextHopNodeId (not_mem_filter_hops _ n) rfl]
      rfl
  · rw [if_neg same]
    cases (r.table.getRoutes p).find? (fun route => route.nextHopNodeId == n) with
    | none => rfl
    | some route =>
      dsimp only
      rw [onSuccess_eq,routesOf_adjust,if_neg same,routesOf_readded,if_neg same]

theorem routesOf_onDeliveryFailure (r : Router) (n : UInt16) (p h : UInt32) (distinct : (hops (routesOf r.table h)).Nodup) :
    routesOf (r.onDeliveryFailure n p).table h =
      listStep r.config r.localNodeId h (routesOf r.table h) (.onDeliveryFailure n p) := by
  rw [listStep,Router.onDeliveryFailure]
  dsimp only
  rw [onFailure_eq]
  by_cases same : p = h
  · subst same
    have counted := routesOf_adjust r.table p n failed p
    rw [if_pos rfl] at counted
    have distinct' : (hops (routesOf (adjust r.table p n failed) p)).Nodup := by
      rw [counted,hops_failed]
      exact distinct
    rw [if_pos rfl,Keyed.find_perm Route.nextHopNodeId (perm_getRoutes _ p) distinct',counted,find_failed]
    cases found : (routesOf r.table p).find? (fun route => route.nextHopNodeId == n) with
    | none =>
      have absent := (find_eq_none_iff _ n).mp found
      rw [replace_none found,Option.map_none]
      exact counted.trans (Keyed.modify_of_not_mem Route.nextHopNodeId absent failed)
    | some route =>
      rw [replace_some found,Option.map_some,weakened]
      dsimp only
      have weight : (failed route).weight = route.weight := rfl
      rw [weight]
      split
      · dsimp only
        rw [routesOf_readded,if_pos rfl,counted,filter_failed]
        rfl
      · dsimp only
        rw [routesOf_removeRoute,if_pos rfl,counted,filter_failed,Option.toList_none,List.append_nil]
  · have other := routesOf_adjust r.table p n failed h
    rw [if_neg same] at other
    rw [if_neg same]
    cases ((adjust r.table p n failed).getRoutes p).find? (fun route => route.nextHopNodeId == n) with
    | none => exact other
    | some route =>
      dsimp only
      split
      · rw [routesOf_readded,if_neg same,other]
      · rw [routesOf_removeRoute,if_neg same,other]

/-- Each call does to the routes of a path what it does to a list of routes. -/
theorem routesOf_step (r : Router) (call : Call) (h : UInt32) (distinct : (hops (routesOf r.table h)).Nodup) :
    routesOf (step r call).table h = listStep r.config r.localNodeId h (routesOf r.table h) call := by
  cases call with
  | announcePath pathHash =>
    rw [step,Router.announcePath]
    split <;> rfl
  | learnRoute pathHash viaNode => exact routesOf_learnRoute r pathHash viaNode h
  | removeNode nodeId => exact routesOf_removeNode r.table nodeId h
  | onDeliverySuccess viaNode pathHash rttUs => exact routesOf_onDeliverySuccess r viaNode pathHash rttUs h distinct
  | onDeliveryFailure viaNode pathHash => exact routesOf_onDeliveryFailure r viaNode pathHash h distinct
  | tick => exact routesOf_decayAll r.table r.config.decayFactor h

/-! ### Runs -/

/-- A call changes the table and the announced paths only. -/
theorem step_frame (r : Router) (call : Call) :
    step r call = { r with table := (step r call).table, localPaths := (step r call).localPaths } := by
  cases call with
  | announcePath pathHash =>
    rw [step,Router.announcePath]
    split <;> rfl
  | learnRoute pathHash viaNode =>
    rw [step,Router.learnRoute]
    split
    · rfl
    · dsimp only
      split <;> rfl
  | removeNode nodeId => rfl
  | onDeliverySuccess viaNode pathHash rttUs =>
    rw [step,Router.onDeliverySuccess]
    split <;> rfl
  | onDeliveryFailure viaNode pathHash =>
    rw [step,Router.onDeliveryFailure]
    dsimp only
    split
    · rfl
    · split <;> rfl
  | tick => rfl

theorem config_step (r : Router) (call : Call) : (step r call).config = r.config := by rw [step_frame]

theorem localNodeId_step (r : Router) (call : Call) : (step r call).localNodeId = r.localNodeId := by rw [step_frame]

theorem noEmpty_step {r : Router} (full : NoEmpty r.table) (call : Call) : NoEmpty (step r call).table := by
  cases call with
  | announcePath pathHash =>
    rw [step,Router.announcePath]
    split <;> exact full
  | learnRoute pathHash viaNode =>
    rw [step,Router.learnRoute]
    split
    · exact full
    · dsimp only
      split
      · exact full
      · exact noEmpty_addRoute full _ _ _
  | removeNode nodeId => exact noEmpty_removeNode r.table nodeId
  | onDeliverySuccess viaNode pathHash rttUs =>
    rw [step,Router.onDeliverySuccess]
    split
    · exact full
    · exact noEmpty_adjust (noEmpty_addRoute (noEmpty_removeRoute full _ _) _ _ _) _ _ _
  | onDeliveryFailure viaNode pathHash =>
    have counted : NoEmpty (r.table.onFailure pathHash viaNode) := noEmpty_adjust full pathHash viaNode failed
    rw [step,Router.onDeliveryFailure]
    dsimp only
    split
    · exact counted
    · split
      · exact noEmpty_addRoute (noEmpty_removeRoute counted _ _) _ _ _
      · exact noEmpty_removeRoute counted _ _
  | tick => exact noEmpty_decayAll full r.config.decayFactor

theorem hops_append (l m : List Route) : hops (l ++ m) = hops l ++ hops m := List.map_append

theorem hops_filter_sublist (l : List Route) (n : UInt16) :
    (hops (l.filter (fun r => r.nextHopNodeId != n))).Sublist (hops l) :=
  List.filter_sublist.map _

theorem hops_tick (l : List Route) (decayFactor : ℚ) :
    hops (l.map (fun r => { r with weight := r.weight * decayFactor })) = hops l := by
  rw [hops,List.map_map]
  rfl

/-- What replaces a route goes by way of the same node. -/
def Own (n : UInt16) (f : Route → Option Route) : Prop := ∀ route, ∀ fresh ∈ f route, fresh.nextHopNodeId = n

theorem own_strengthened (config : RouterConfig) (n : UInt16) (rttUs : UInt32) : Own n (strengthened config n rttUs) := by
  rintro route fresh ⟨⟩
  rfl

theorem own_weakened (config : RouterConfig) (n : UInt16) : Own n (weakened config n) := by
  intro route fresh made
  rw [weakened,Option.mem_def] at made
  split at made
  · cases made
    rfl
  · cases made

/-- What is in the list after a replacement. -/
theorem mem_replace {l : List Route} {n : UInt16} {f : Route → Option Route} {route : Route}
    (member : route ∈ replace l n f) :
    route ∈ l ∨ ∃ old ∈ l, route ∈ f old := by
  cases found : l.find? (fun r => r.nextHopNodeId == n) with
  | none =>
    rw [replace_none found] at member
    exact .inl member
  | some old =>
    rw [replace_some found,List.mem_append,Option.mem_toList] at member
    rcases member with kept | fresh
    · exact .inl (List.mem_of_mem_filter kept)
    · exact .inr ⟨old,(mem_of_find found).1,fresh⟩

theorem hops_replace_subset {l : List Route} {n : UInt16} {f : Route → Option Route} (own : Own n f) :
    hops (replace l n f) ⊆ hops l := by
  cases found : l.find? (fun r => r.nextHopNodeId == n) with
  | none => rw [replace_none found]; exact List.Subset.refl _
  | some old =>
    obtain ⟨listed,same⟩ := mem_of_find found
    rw [replace_some found,hops_append]
    refine List.append_subset.mpr ⟨(hops_filter_sublist l n).subset,?_⟩
    intro m member
    obtain ⟨fresh,made,rfl⟩ := mem_hops.mp member
    rw [own old fresh (Option.mem_toList.mp made)]
    exact mem_hops.mpr ⟨old,listed,same⟩

theorem nodup_replace {l : List Route} {n : UInt16} {f : Route → Option Route} (distinct : (hops l).Nodup) (own : Own n f) :
    (hops (replace l n f)).Nodup := by
  cases found : l.find? (fun r => r.nextHopNodeId == n) with
  | none => rw [replace_none found]; exact distinct
  | some old =>
    have rest := distinct.sublist (hops_filter_sublist l n)
    rw [replace_some found,hops_append]
    cases made : f old with
    | none =>
      have none : hops (none : Option Route).toList = [] := rfl
      rw [none,List.append_nil]
      exact rest
    | some fresh =>
      have single : hops (some fresh).toList = [n] := congrArg (fun m => [m]) (own old fresh made)
      rw [single]
      exact List.Nodup.append rest (List.nodup_singleton n) (List.disjoint_singleton.mpr (not_mem_filter_hops l n))

/-- No call leads to a second route by way of a node. -/
theorem nodup_listStep (config : RouterConfig) (localNodeId : UInt16) (h : UInt32) {l : List Route}
    (distinct : (hops l).Nodup) (call : Call) : (hops (listStep config localNodeId h l call)).Nodup := by
  cases call with
  | announcePath pathHash => exact distinct
  | learnRoute pathHash viaNode =>
    rw [listStep]
    split
    · next new =>
      rw [hops_append]
      exact List.Nodup.append distinct (List.nodup_singleton viaNode) (List.disjoint_singleton.mpr new.2.2.2)
    · exact distinct
  | removeNode nodeId => exact distinct.sublist (hops_filter_sublist l nodeId)
  | onDeliverySuccess viaNode pathHash rttUs =>
    rw [listStep]
    split
    · exact nodup_replace distinct (own_strengthened config viaNode rttUs)
    · exact distinct
  | onDeliveryFailure viaNode pathHash =>
    rw [listStep]
    split
    · exact nodup_replace distinct (own_weakened config viaNode)
    · exact distinct
  | tick =>
    rw [listStep,hops_tick]
    exact distinct

/-- No path has two routes by way of one node. -/
def Distinct (t : RouteTable) : Prop := ∀ h, (hops (routesOf t h)).Nodup

theorem distinct_step {r : Router} (distinct : Distinct r.table) (call : Call) : Distinct (step r call).table := by
  intro h
  rw [routesOf_step r call h (distinct h)]
  exact nodup_listStep _ _ h (distinct h) call

theorem routesOf_new (h : UInt32) : routesOf {} h = [] := routesOf_of_none ExtTreeMap.getElem?_empty

theorem distinct_new : Distinct {} := by
  intro h
  rw [routesOf_new]
  exact List.nodup_nil

/-- A run of calls does to the routes of a path what it does to a list of routes. -/
theorem routesOf_run (calls : List Call) (r : Router) (distinct : Distinct r.table) (h : UInt32) :
    routesOf (run step r calls).table h = run (listStep r.config r.localNodeId h) (routesOf r.table h) calls := by
  induction calls generalizing r with
  | nil => rfl
  | cons call calls ih =>
    rw [run_cons,run_cons,ih (step r call) (distinct_step distinct call),config_step,localNodeId_step,
      routesOf_step r call h (distinct h)]

end Rom.RouteLists
