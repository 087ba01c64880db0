import Rom.RouteLists

/-!
Statistics of routes. A route counts deliveries and failures and averages round-trip
times, but feedback to the router takes it out of the table and adds a fresh one,
which knows of one delivery at most (`known_step`). So its statistics are those of
all the feedback since it was learned exactly where that is nothing or a single
delivery (`stats_exact_iff`).
-/
namespace Rom.RouteStats
open Rom.Runs RouteTable RouteLists

/-- Any call of the router. -/
inductive Op where
  | call (call : Call)
  | setConfig (config : RouterConfig)
  deriving DecidableEq

inductive Feedback where
  | success (rttUs : UInt32)
  | failure
  deriving DecidableEq, Repr

/-- A router, with the feedback on each route since it was learned. -/
structure Watched where
  router : Router
  feedback : UInt32 → UInt16 → List Feedback := fun _ _ => []

/-- The feedback after a call. A route is learned where there was none. -/
def feedbackAfter (s : Watched) : Call → UInt32 → UInt16 → List Feedback
  | .learnRoute pathHash viaNode, h, n =>
    if pathHash = h ∧ viaNode = n ∧ s.router.table.findRoute h n = none then [] else s.feedback h n
  | .onDeliverySuccess viaNode pathHash rttUs, h, n =>
    if pathHash = h ∧ viaNode = n then s.feedback h n ++ [.success rttUs] else s.feedback h n
  | .onDeliveryFailure viaNode pathHash, h, n =>
    if pathHash = h ∧ viaNode = n then s.feedback h n ++ [.failure] else s.feedback h n
  | _, h, n => s.feedback h n

def step (s : Watched) : Op → Watched
  | .call call => { router := RouteLists.step s.router call, feedback := feedbackAfter s call }
  | .setConfig config => { s with router := s.router.setConfig config }

def begin (localNodeId : UInt16) (config : RouterConfig) : Watched :=
  { router := { localNodeId := localNodeId, config := config } }

/-- The round-trip times of the deliveries. -/
def roundTrips (fs : List Feedback) : List UInt32 :=
  fs.filterMap fun f => match f with
    | .success rttUs => some rttUs
    | .failure => none

/-- The moving average of samples, from the first one on. -/
def movingAverage : List UInt32 → ℚ
  | [] => 0
  | first :: rest => rest.foldl (fun average rttUs => 3/10 * rttUs.toNat + 7/10 * average) first.toNat

/-- The route has counted and averaged all the feedback. -/
def Exact (route : Route) (fs : List Feedback) : Prop :=
  route.successCount.toNat = (roundTrips fs).length ∧ route.failureCount.toNat = fs.count .failure ∧
    (roundTrips fs ≠ [] → route.latencyEmaUs = movingAverage (roundTrips fs))

/-- Every route in the table has exact statistics. -/
def Accumulated (s : Watched) : Prop :=
  ∀ h n route, s.router.table.findRoute h n = some route → Exact route (s.feedback h n)

/-- Nothing, or a single delivery. -/
def Brief (fs : List Feedback) : Prop := fs = [] ∨ ∃ rttUs, fs = [.success rttUs]

/-- There is little feedback on every route in the table. -/
def AllBrief (s : Watched) : Prop := ∀ h n route, s.router.table.findRoute h n = some route → Brief (s.feedback h n)

/-! ### What a route knows -/

def stats (route : Route) : UInt32 × UInt32 × ℚ := (route.successCount,route.failureCount,route.latencyEmaUs)

/-- What is left of the feedback: the last one, if it is a delivery. -/
def lastStats (fs : List Feedback) : UInt32 × UInt32 × ℚ :=
  match fs.getLast? with
  | some (.success rttUs) => (1,0,rttUs.toNat)
  | _ => (0,0,0)

theorem lastStats_append (fs : List Feedback) (f : Feedback) : lastStats (fs ++ [f]) = lastStats [f] := by
  rw [lastStats,List.getLast?_append]
  rfl

theorem length_eq_counts (fs : List Feedback) : fs.length = (roundTrips fs).length + fs.count .failure := by
  induction fs with
  | nil => rfl
  | cons f fs ih =>
    cases f with
    | success rttUs =>
      have one : roundTrips (.success rttUs :: fs) = rttUs :: roundTrips fs := rfl
      rw [one,List.length_cons,List.length_cons,List.count_cons_of_ne (by simp),ih]
      omega
    | failure =>
      have none : roundTrips (.failure :: fs) = roundTrips fs := rfl
      rw [none,List.length_cons,List.count_cons_self,ih]
      omega

theorem brief_append (before : List Feedback) (f : Feedback) :
    Brief (before ++ [f]) ↔ before = [] ∧ ∃ rttUs, f = .success rttUs := by
  constructor
  · rintro (empty | ⟨rttUs,single⟩)
    · exact absurd empty (List.append_ne_nil_of_right_ne_nil _ (List.cons_ne_nil _ _))
    · obtain ⟨none,one⟩ := List.append_eq_singleton_iff.mp single |>.resolve_right (by simp)
      exact ⟨none,rttUs,List.singleton_inj.mp one⟩
  · rintro ⟨rfl,rttUs,rfl⟩
    exact .inr ⟨rttUs,rfl⟩

/-- A route that knows of a single delivery has exact statistics exactly if there was
    nothing before it. -/
theorem exact_success_iff {route : Route} {before : List Feedback} {rttUs : UInt32} (successes : route.successCount = 1)
    (failures : route.failureCount = 0) (latency : route.latencyEmaUs = rttUs.toNat) :
    Exact route (before ++ [.success rttUs]) ↔ before = [] := by
  constructor
  · rintro ⟨counted,missed,_⟩
    have trips : roundTrips (before ++ [.success rttUs]) = roundTrips before ++ [rttUs] := List.filterMap_append
    have length := length_eq_counts before
    rw [trips,successes,List.length_append,List.length_singleton,UInt32.toNat_one] at counted
    rw [failures,List.count_append,UInt32.toNat_zero] at missed
    exact List.length_eq_zero_iff.mp (by omega)
  · rintro rfl
    simp [Exact,roundTrips,successes,failures,latency,movingAverage]

theorem not_exact_failure {route : Route} (failures : route.failureCount = 0) (before : List Feedback) :
    ¬ Exact route (before ++ [.failure]) := by
  rintro ⟨_,missed,_⟩
  rw [failures] at missed
  simp at missed

/-- A route that knows of the last feedback only has exact statistics exactly after
    nothing or a single delivery. -/
theorem exact_iff_brief {route : Route} {fs : List Feedback} (known : stats route = lastStats fs) :
    Exact route fs ↔ Brief fs := by
  rcases List.eq_nil_or_concat' fs with rfl | ⟨before,f,rfl⟩
  · have counts : route.successCount = 0 ∧ route.failureCount = 0 ∧ route.latencyEmaUs = 0 := by
      simpa [stats,lastStats] using known
    refine iff_of_true ?_ (.inl rfl)
    simp [Exact,roundTrips,counts]
  · rw [lastStats_append] at known
    rw [brief_append]
    cases f with
    | success rttUs =>
      have counts : route.successCount = 1 ∧ route.failureCount = 0 ∧ route.latencyEmaUs = rttUs.toNat := by
        simpa [stats,lastStats] using known
      rw [exact_success_iff counts.1 counts.2.1 counts.2.2]
      exact ⟨fun none => ⟨none,rttUs,rfl⟩,And.left⟩
    | failure =>
      have counts : route.successCount = 0 ∧ route.failureCount = 0 ∧ route.latencyEmaUs = 0 := by
        simpa [stats,lastStats] using known
      refine iff_of_false (not_exact_failure counts.2.1 before) ?_
      rintro ⟨_,rttUs,success⟩
      cases success

/-! ### One call -/

/-- Each route of a path knows of the last feedback on it. -/
def Tracked (feedback : UInt16 → List Feedback) (l : List Route) : Prop :=
  ∀ route ∈ l, stats route = lastStats (feedback route.nextHopNodeId)

/-- Feedback on other nodes does not matter. -/
theorem tracked_congr {feedback feedback' : UInt16 → List Feedback} {l : List Route} (tracked : Tracked feedback l)
    (same : ∀ n ∈ hops l, feedback' n = feedback n) : Tracked feedback' l := by
  intro route member
  rw [same _ (mem_hops.mpr ⟨route,member,rfl⟩)]
  exact tracked route member

theorem tracked_filter {feedback : UInt16 → List Feedback} {l : List Route} (tracked : Tracked feedback l) (n : UInt16) :
    Tracked feedback (l.filter (fun r => r.nextHopNodeId != n)) :=
  fun route member => tracked route (List.mem_of_mem_filter member)

theorem tracked_replace {feedback feedback' : UInt16 → List Feedback} {l : List Route} {n : UInt16}
    {f : Route → Option Route} (tracked : Tracked feedback l) (own : Own n f)
    (known : ∀ route, ∀ fresh ∈ f route, stats fresh = lastStats (feedback' n))
    (others : ∀ m, m ≠ n → feedback' m = feedback m) : Tracked feedback' (replace l n f) := by
  cases found : l.find? (fun r => r.nextHopNodeId == n) with
  | none =>
    have absent := (find_eq_none_iff l n).mp found
    rw [replace_none found]
    exact tracked_congr tracked fun m listed => others m fun same => absent (same ▸ listed)
  | some old =>
    have kept : Tracked feedback' (l.filter (fun r => r.nextHopNodeId != n)) :=
      tracked_congr (tracked_filter tracked n) fun m listed => others m fun same => not_mem_filter_hops l n (same ▸ listed)
    rw [replace_some found]
    intro route member
    rcases List.mem_append.mp member with listed | fresh
    · exact kept route listed
    · have made := Option.mem_toList.mp fresh
      rw [own old route made]
      exact known old route made

theorem tracked_learnRoute {s : Watched} (p : UInt32) (n : UInt16) (h : UInt32)
    (tracked : Tracked (s.feedback h) (routesOf s.router.table h)) :
    Tracked (feedbackAfter s (.learnRoute p n) h)
      (listStep s.router.config s.router.localNodeId h (routesOf s.router.table h) (.learnRoute p n)) := by
  have kept : Tracked (feedbackAfter s (.learnRoute p n) h) (routesOf s.router.table h) := by
    refine tracked_congr tracked fun m listed => if_neg ?_
    rintro ⟨_,_,absent⟩
    rw [findRoute_eq,find_eq_none_iff] at absent
    exact absent listed
  rw [listStep]
  split
  · next new =>
    obtain ⟨same,_,_,absent⟩ := new
    intro route member
    rcases List.mem_append.mp member with old | fresh
    · exact kept route old
    · -- the new route starts from nothing, and so does the feedback on it
      rw [List.mem_singleton.mp fresh,feedbackAfter,if_pos]
      · rfl
      · exact ⟨same,rfl,(findRoute_eq _ _ _).trans ((find_eq_none_iff _ _).mpr absent)⟩
  · exact kept

theorem tracked_step {s : Watched} (distinct : Distinct s.router.table) (call : Call) (h : UInt32)
    (tracked : Tracked (s.feedback h) (routesOf s.router.table h)) :
    Tracked (feedbackAfter s call h) (routesOf (RouteLists.step s.router call).table h) := by
  rw [routesOf_step s.router call h (distinct h)]
  cases call with
  | announcePath pathHash => exact tracked
  | removeNode nodeId => exact tracked_filter tracked nodeId
  | tick =>
    intro route member
    obtain ⟨old,listed,rfl⟩ := List.mem_map.mp member
    exact tracked old listed
  | learnRoute pathHash viaNode => exact tracked_learnRoute pathHash viaNode h tracked
  | onDeliverySuccess viaNode pathHash rttUs =>
    rw [listStep]
    split
    · next same =>
      refine tracked_replace tracked (own_strengthened _ viaNode rttUs) ?_ fun m other =>
        if_neg fun both => other both.2.symm
      rintro route fresh ⟨⟩
      rw [feedbackAfter,if_pos ⟨same,rfl⟩,lastStats_append]
      rfl
    · next apart => exact tracked_congr tracked fun m _ => if_neg fun both => apart both.1
  | onDeliveryFailure viaNode pathHash =>
    rw [listStep]
    split
    · next same =>
      refine tracked_replace tracked (own_weakened _ viaNode) ?_ fun m other => if_neg fun both => other both.2.symm
      intro route fresh made
      rw [weakened,Option.mem_def] at made
      split at made
      · cases made
        rw [feedbackAfter,if_pos ⟨same,rfl⟩,lastStats_append]
        rfl
      · cases made
    · next apart => exact tracked_congr tracked fun m _ => if_neg fun both => apart both.1

/-! ### Runs -/

/-- One route for each node of a path, which knows of the last feedback on it and of
    nothing else. -/
def Known (s : Watched) : Prop :=
  Distinct s.router.table ∧ ∀ h, Tracked (s.feedback h) (routesOf s.router.table h)

theorem known_step (s : Watched) (op : Op) (known : Known s) : Known (step s op) := by
  obtain ⟨distinct,tracked⟩ := known
  cases op with
  | call call => exact ⟨distinct_step distinct call,fun h => tracked_step distinct call h (tracked h)⟩
  | setConfig config => exact ⟨distinct,tracked⟩

theorem known_begin (localNodeId : UInt16) (config : RouterConfig) : Known (begin localNodeId config) := by
  refine ⟨distinct_new,fun h route member => ?_⟩
  have empty : routesOf (begin localNodeId config).router.table h = [] := routesOf_new h
  rw [empty] at member
  cases member

theorem accumulated_iff (s : Watched) (known : Known s) : Accumulated s ↔ AllBrief s := by
  refine forall_congr' fun h => forall_congr' fun n => forall_congr' fun route => imp_congr_right fun found => ?_
  rw [findRoute_eq] at found
  obtain ⟨member,own⟩ := mem_of_find found
  have stats := known.2 h route member
  rw [own] at stats
  exact exact_iff_brief stats

/-- Statistics accumulate along a run exactly where no route that is still there has
    had more feedback since it was learned than a single delivery. -/
theorem stats_exact_iff (localNodeId : UInt16) (config : RouterConfig) (ops : List Op) :
    Everywhere step Accumulated (begin localNodeId config) ops ↔
      Everywhere step AllBrief (begin localNodeId config) ops :=
  everywhere_congr known_step accumulated_iff (known_begin localNodeId config)

/-- After two deliveries, in 100 and 200 microseconds, a route has counted one and has
    the second time as its average; after a failure more it has counted nothing. -/
theorem stats_reset :
    (run step (begin 0 {}) [.call (.learnRoute 9 1),.call (.onDeliverySuccess 1 9 100),
        .call (.onDeliverySuccess 1 9 200)]).router.table.findRoute 9 1 =
      some { nextHopNodeId := 1, weight := 4/10, latencyEmaUs := 200, successCount := 1, lastSuccessUs := 200 } ∧
    (run step (begin 0 {}) [.call (.learnRoute 9 1),.call (.onDeliverySuccess 1 9 100),.call (.onDeliverySuccess 1 9 200),
        .call (.onDeliveryFailure 1 9)]).router.table.findRoute 9 1 = some { nextHopNodeId := 1, weight := 2/10 } ∧
    ¬ Everywhere step Accumulated (begin 0 {}) [.call (.learnRoute 9 1),.call (.onDeliverySuccess 1 9 100),
        .call (.onDeliverySuccess 1 9 200)] := by
  refine ⟨by decide +kernel,by decide +kernel,fun accumulated => ?_⟩
  have last := accumulated.2.2.2 9 1
    { nextHopNodeId := 1, weight := 4/10, latencyEmaUs := 200, successCount := 1, lastSuccessUs := 200 } (by decide +kernel)
  exact absurd last.1 (by decide +kernel)

end Rom.RouteStats
