import Rom.Resolution
import Rom.Windows
import Mathlib.Algebra.Order.Archimedean.Real.Basic

/-!
Runs of the filter in front of a subscriber. In the NORMAL tier the deltas of each
path go through a limiter of their own, with windows of a second; so the filter keeps
its rate on average, and paths do not influence each other (`normal_rate`). In the
COARSE tier it compares with the last delta that it forwarded of the path, so what a
subscriber has is never far from what was offered last (`coarse_staleness`).
-/
namespace Rom.FilterRuns
open Std Rom.Runs DeltaFilter

/-- A delta that is offered, and when. -/
structure Call where
  now : ℕ
  pathHash : UInt32
  data : Bytes
  deriving DecidableEq

def step (f : DeltaFilter) (c : Call) : DeltaFilter := (f.shouldForward c.now c.pathHash c.data).1

/-- What is decided about the deltas of a path. -/
def decided (pathHash : UInt32) (f : DeltaFilter) (c : Call) : List Bool :=
  if c.pathHash = pathHash then [(f.shouldForward c.now c.pathHash c.data).2] else []

/-- The deltas of a path that are forwarded. -/
def forwards (pathHash : UInt32) (f : DeltaFilter) (c : Call) : List Call :=
  if c.pathHash = pathHash ∧ (f.shouldForward c.now c.pathHash c.data).2 = true then [c] else []

/-- A filter of the NORMAL tier as it is constructed. -/
def normal (config : ResolutionConfig) : DeltaFilter := { tier := .normal, config := config }

/-- A filter of the COARSE tier as it is constructed. -/
def coarse (config : ResolutionConfig) : DeltaFilter := { tier := .coarse, config := config }

theorem record_eq (r : DeltaFilter × Bool) :
    (record r).2 = r.2 ∧ (record r).1.tier = r.1.tier ∧ (record r).1.config = r.1.config ∧
      (record r).1.rateStates = r.1.rateStates ∧ (record r).1.coarseStates = r.1.coarseStates := by
  obtain ⟨f,forward⟩ := r
  cases forward with
  | true => exact ⟨rfl,rfl,rfl,rfl,rfl⟩
  | false => exact ⟨rfl,rfl,rfl,rfl,rfl⟩

/-! ### The NORMAL tier -/

/-- A second in microseconds. -/
def second : ℕ := 1000000

/-- The window of a path; there is none before its first delta. -/
def window (state : PathRateState) : Option Windows.Window :=
  if state.sentThisInterval = 0 then none else some ⟨state.lastSent,state.sentThisInterval.toNat⟩

theorem window_none {state : PathRateState} (unsent : state.sentThisInterval = 0) : window state = none := if_pos unsent

theorem window_some {state : PathRateState} (sent : ¬ state.sentThisInterval = 0) :
    window state = some ⟨state.lastSent,state.sentThisInterval.toNat⟩ := if_neg sent

/-- One more delta in a window that has room. -/
theorem window_more {state : PathRateState} {limit : UInt32} (room : state.sentThisInterval < limit) :
    window { state with sentThisInterval := state.sentThisInterval + 1 } =
      some ⟨state.lastSent,state.sentThisInterval.toNat + 1⟩ := by
  have bound := limit.toNat_lt
  rw [UInt32.lt_iff_toNat_lt] at room
  have more : (state.sentThisInterval + 1).toNat = state.sentThisInterval.toNat + 1 := by
    rw [UInt32.toNat_add]
    exact Nat.mod_eq_of_lt (show state.sentThisInterval.toNat + 1 < 2^32 by omega)
  have sent : ¬ state.sentThisInterval + 1 = 0 := by
    intro zero
    have none := congrArg UInt32.toNat zero
    rw [more] at none
    exact absurd none (Nat.succ_ne_zero _)
  rw [window_some sent,more]

/-- The check is a limiter with windows of a second, one for each path. -/
theorem checkRateLimit_eq (f : DeltaFilter) (now : ℕ) (pathHash : UInt32) :
    (f.checkRateLimit now pathHash).2 =
        (Windows.enter second f.config.normalMaxUpdatesPerSec.toNat (window (f.rateStates.getD pathHash {})) now).2 ∧
      window ((f.checkRateLimit now pathHash).1.rateStates.getD pathHash {}) =
        (Windows.enter second f.config.normalMaxUpdatesPerSec.toNat (window (f.rateStates.getD pathHash {})) now).1 := by
  have elapsed (lastSent : ℕ) : (now - lastSent) / 1000 ≥ 1000 ↔ second ≤ now - lastSent := by
    rw [second]
    omega
  simp only [checkRateLimit,elapsed]
  by_cases unsent : (f.rateStates.getD pathHash {}).sentThisInterval = 0
  · rw [if_pos unsent,window_none unsent,ExtTreeMap.getD_insert_self]
    exact ⟨rfl,rfl⟩
  · rw [if_neg unsent,window_some unsent,Windows.enter]
    by_cases next : second ≤ now - (f.rateStates.getD pathHash {}).lastSent
    · rw [if_pos next,if_pos next,ExtTreeMap.getD_insert_self]
      exact ⟨rfl,rfl⟩
    · rw [if_neg next,if_neg next]
      by_cases room : (f.rateStates.getD pathHash {}).sentThisInterval < f.config.normalMaxUpdatesPerSec
      · rw [if_pos room,if_pos (UInt32.lt_iff_toNat_lt.mp room),ExtTreeMap.getD_insert_self,window_more room]
        exact ⟨rfl,rfl⟩
      · rw [if_neg room,if_neg (fun less => room (UInt32.lt_iff_toNat_lt.mpr less)),window_some unsent]
        exact ⟨rfl,rfl⟩

/-- The check leaves the tier, the limits and the other paths alone. -/
theorem checkRateLimit_rest (f : DeltaFilter) (now : ℕ) (pathHash : UInt32) :
    (f.checkRateLimit now pathHash).1.tier = f.tier ∧ (f.checkRateLimit now pathHash).1.config = f.config ∧
      ∀ other, pathHash ≠ other → (f.checkRateLimit now pathHash).1.rateStates.getD other {} =
        f.rateStates.getD other {} := by
  have elsewhere (state : PathRateState) (other : UInt32) (apart : pathHash ≠ other) :
      (f.rateStates.insert pathHash state).getD other {} = f.rateStates.getD other {} := by
    simp [ExtTreeMap.getD_insert,apart]
  rw [checkRateLimit]
  split
  · exact ⟨rfl,rfl,elsewhere _⟩
  · split
    · exact ⟨rfl,rfl,elsewhere _⟩
    · split
      · exact ⟨rfl,rfl,elsewhere _⟩
      · exact ⟨rfl,rfl,fun _ _ => rfl⟩

section
variable {config : ResolutionConfig} {pathHash : UInt32}

/-- A filter of the NORMAL tier with the limits, and the window of the path in it. -/
structure Holds (config : ResolutionConfig) (pathHash : UInt32) (f : DeltaFilter) (w : Option Windows.Window) : Prop where
  tier : f.tier = .normal
  config : f.config = config
  window : window (f.rateStates.getD pathHash {}) = w

theorem holds_normal : Holds config pathHash (normal config) none := ⟨rfl,rfl,by simp [normal,window]⟩

theorem shouldForward_normal {f : DeltaFilter} (tier : f.tier = .normal) (now : ℕ) (path : UInt32) (data : Bytes) :
    f.shouldForward now path data = record (f.checkRateLimit now path) := by
  rw [shouldForward,tier]

/-- A delta of another path does not touch the window. -/
theorem holds_other {f : DeltaFilter} {w : Option Windows.Window} (holds : Holds config pathHash f w) {c : Call}
    (other : c.pathHash ≠ pathHash) : Holds config pathHash (step f c) w := by
  obtain ⟨tier,limits,rates⟩ := checkRateLimit_rest f c.now c.pathHash
  obtain ⟨_,tier',limits',rates',_⟩ := record_eq (f.checkRateLimit c.now c.pathHash)
  rw [step,shouldForward_normal holds.tier]
  exact ⟨tier'.trans (tier.trans holds.tier),limits'.trans (limits.trans holds.config),
    by rw [rates',rates pathHash other,holds.window]⟩

/-- A delta of the path is a request to its limiter. -/
theorem holds_own {f : DeltaFilter} {w : Option Windows.Window} (holds : Holds config pathHash f w) {c : Call}
    (own : c.pathHash = pathHash) :
    (f.shouldForward c.now c.pathHash c.data).2 =
        (Windows.enter second config.normalMaxUpdatesPerSec.toNat w c.now).2 ∧
      Holds config pathHash (step f c) (Windows.step second config.normalMaxUpdatesPerSec.toNat w c.now) := by
  obtain ⟨tier,limits,_⟩ := checkRateLimit_rest f c.now c.pathHash
  obtain ⟨forward,tier',limits',rates',_⟩ := record_eq (f.checkRateLimit c.now c.pathHash)
  obtain ⟨passes,after⟩ := checkRateLimit_eq f c.now c.pathHash
  subst own
  rw [holds.config,holds.window] at passes after
  rw [step,shouldForward_normal holds.tier]
  exact ⟨forward.trans passes,tier'.trans (tier.trans holds.tier),limits'.trans (limits.trans holds.config),
    by rw [rates',after]; rfl⟩

/-- The deltas of a path that are forwarded are those that pass its limiter. -/
theorem times_forwarded (config : ResolutionConfig) (pathHash : UInt32) (calls : List Call) :
    (outputs step (forwards pathHash) (normal config) calls).map Call.now =
      Windows.admitted second config.normalMaxUpdatesPerSec.toNat none
        ((calls.filter (fun c => c.pathHash == pathHash)).map Call.now) := by
  rw [map_outputs,filter_eq_flatMap,List.map_flatMap,Windows.admitted]
  refine outputs_simulation (R := fun f w _ => Holds config pathHash f w) ?_ holds_normal
  intro f w c _ holds
  by_cases own : c.pathHash = pathHash
  · obtain ⟨passes,later⟩ := holds_own holds own
    rw [forwards,passes]
    simp only [own,true_and,beq_self_eq_true,if_true,List.map_cons,List.map_nil,outputs,Windows.pass,List.append_nil]
    refine ⟨?_,later⟩
    split
    · rfl
    · rfl
  · have silent : (c.pathHash == pathHash) = false := beq_false_of_ne own
    rw [forwards,silent]
    simp only [own,false_and,if_false,Bool.false_eq_true,List.map_nil]
    exact ⟨rfl,holds_other holds own⟩

/-- What is decided about a path depends on the deltas of the path alone. -/
theorem decided_own (config : ResolutionConfig) (pathHash : UInt32) (calls : List Call) :
    outputs step (decided pathHash) (normal config) calls =
      outputs step (decided pathHash) (normal config) (calls.filter (fun c => c.pathHash == pathHash)) := by
  refine outputs_filter (R := fun f g _ => ∃ w, Holds config pathHash f w ∧ Holds config pathHash g w) ?_ ?_
    ⟨none,holds_normal,holds_normal⟩
  · rintro f g c _ ⟨w,holds,holds'⟩ heard
    have own : c.pathHash = pathHash := by simpa using heard
    obtain ⟨passes,later⟩ := holds_own holds own
    obtain ⟨passes',later'⟩ := holds_own holds' own
    refine ⟨?_,_,later,later'⟩
    rw [decided,decided,passes,passes']
  · rintro f g c _ ⟨w,holds,holds'⟩ silent
    have other : c.pathHash ≠ pathHash := by simpa using silent
    exact ⟨if_neg other,w,holds_other holds other,holds'⟩

end

/-- Times are whole microseconds. -/
theorem le_of_within {first now : ℕ} {T : ℝ} (within : (now : ℝ) - first ≤ T * second) : now ≤ first + ⌊T * second⌋₊ := by
  by_cases before : now ≤ first
  · exact before.trans (Nat.le_add_right _ _)
  · have time : ((now - first : ℕ) : ℝ) ≤ T * second := by
      rw [Nat.cast_sub (Nat.le_of_not_le before)]
      exact within
    have whole := Nat.le_floor time
    omega

/-- In the NORMAL tier with the limit `N`, at most `N` deltas of a path are forwarded
    for each second begun after its first one, and calls for other paths change
    nothing for it. -/
theorem normal_rate (config : ResolutionConfig) (limited : 1 ≤ config.normalMaxUpdatesPerSec) (calls : List Call)
    (ordered : calls.Pairwise (fun c c' => c.now ≤ c'.now)) (pathHash : UInt32) :
    (∀ first ∈ (outputs step (forwards pathHash) (normal config) calls).head?, ∀ T : ℝ,
      ((outputs step (forwards pathHash) (normal config) calls).filter
        (fun c => (c.now : ℝ) - first.now ≤ T * second)).length ≤ config.normalMaxUpdatesPerSec.toNat * (⌊T⌋₊ + 1)) ∧
    outputs step (decided pathHash) (normal config) calls =
      outputs step (decided pathHash) (normal config) (calls.filter (fun c => c.pathHash == pathHash)) := by
  refine ⟨?_,decided_own config pathHash calls⟩
  intro first head T
  have times := times_forwarded config pathHash calls
  have sorted : ((calls.filter (fun c => c.pathHash == pathHash)).map Call.now).Pairwise (· ≤ ·) :=
    List.pairwise_map.mpr (ordered.filter _)
  have begins : (Windows.admitted second config.normalMaxUpdatesPerSec.toNat none
      ((calls.filter (fun c => c.pathHash == pathHash)).map Call.now)).head? = some first.now := by
    rw [← times,List.head?_map,Option.mem_def.mp head]
    rfl
  have counted := Windows.admitted_within (show 0 < second by decide) (UInt32.le_iff_toNat_le.mp limited) sorted begins
    ⌊T * second⌋₊
  rw [Nat.mul_cast_floor_div_cancel (show second ≠ 0 by decide),← times,List.filter_map,List.length_map] at counted
  refine Nat.le_trans ?_ counted
  rw [← List.countP_eq_length_filter,← List.countP_eq_length_filter]
  refine List.countP_mono_left ?_
  intro c _ within
  rw [decide_eq_true_eq] at within
  exact decide_eq_true (le_of_within within)

/-- Three deltas of a path in its first second, one in the next, and one of another
    path between them. -/
def burst : List Call := [⟨5,7,[1]⟩,⟨5,7,[2]⟩,⟨6,8,[3]⟩,⟨900,7,[4]⟩,⟨1000005,7,[5]⟩]

theorem normal_rate_burst : burst.Pairwise (fun c c' => c.now ≤ c'.now) ∧
    outputs step (forwards 7) (normal { normalMaxUpdatesPerSec := 2 }) burst = [⟨5,7,[1]⟩,⟨5,7,[2]⟩,⟨1000005,7,[5]⟩] ∧
    ((outputs step (forwards 7) (normal { normalMaxUpdatesPerSec := 2 }) burst).filter
      (fun c => (c.now : ℝ) - (5 : ℕ) ≤ 1 * second)).length ≤ 2 * (⌊(1 : ℝ)⌋₊ + 1) := by
  refine ⟨by decide,by decide +kernel,?_⟩
  exact (normal_rate { normalMaxUpdatesPerSec := 2 } (by decide) burst (by decide) 7).1 ⟨5,7,[1]⟩ (by decide +kernel) 1

/-! ### The COARSE tier -/

/-- How many bytes differ: the positions at which they do, and the difference in length. -/
def differing (a b : Bytes) : ℕ :=
  ((List.range (min a.length b.length)).filter (fun i => a[i]? != b[i]?)).length +
    (max a.length b.length - min a.length b.length)

theorem countP_zip (a b : Bytes) :
    (a.zip b).countP (fun x => x.1 != x.2) =
      ((List.range (min a.length b.length)).filter (fun i => a[i]? != b[i]?)).length := by
  induction a generalizing b with
  | nil => simp
  | cons x a ih =>
    cases b with
    | nil => simp
    | cons y b =>
      have behind : ((List.range (min a.length b.length)).map Nat.succ).filter (fun i => (x :: a)[i]? != (y :: b)[i]?) =
          ((List.range (min a.length b.length)).filter (fun i => a[i]? != b[i]?)).map Nat.succ := by
        rw [List.filter_map]
        rfl
      rw [List.length_cons,List.length_cons,Nat.succ_min_succ,List.range_succ_eq_map,List.filter_cons,behind,
        List.zip_cons_cons,
        List.countP_cons,ih]
      by_cases same : x = y
      · simp [same]
      · simp [same]

theorem diffBytes_eq (a b : Bytes) : diffBytes a b = differing a b := by
  rw [diffBytes,differing,countP_zip,Nat.add_comm]

theorem differing_self (a : Bytes) : differing a a = 0 := by simp [differing]

theorem shouldForward_coarse {f : DeltaFilter} (tier : f.tier = .coarse) (now : ℕ) (path : UInt32) (data : Bytes) :
    f.shouldForward now path data = record (f.checkChangeThreshold path data) := by
  rw [shouldForward,tier]

/-- A delta is forwarded after an empty one, or none, and if it differs enough; and
    what is forwarded is kept. -/
theorem checkChangeThreshold_eq (f : DeltaFilter) (pathHash : UInt32) (data : Bytes) :
    ((f.checkChangeThreshold pathHash data).2 = true ↔ f.coarseStates.getD pathHash [] = [] ∨
        f.config.coarseMinChangeBytes ≤ differing (f.coarseStates.getD pathHash []) data) ∧
      (f.checkChangeThreshold pathHash data).1.tier = f.tier ∧ (f.checkChangeThreshold pathHash data).1.config = f.config ∧
      ∀ other, (f.checkChangeThreshold pathHash data).1.coarseStates.getD other [] =
        if pathHash = other ∧ (f.checkChangeThreshold pathHash data).2 = true then data
        else f.coarseStates.getD other [] := by
  have kept (other : UInt32) : (f.coarseStates.insert pathHash data).getD other [] =
      if pathHash = other ∧ true = true then data else f.coarseStates.getD other [] := by
    simp [ExtTreeMap.getD_insert]
  simp only [checkChangeThreshold,diffBytes_eq,List.isEmpty_iff]
  by_cases empty : f.coarseStates.getD pathHash [] = []
  · rw [if_pos empty]
    exact ⟨iff_of_true rfl (.inl empty),rfl,rfl,kept⟩
  · rw [if_neg empty]
    by_cases enough : differing (f.coarseStates.getD pathHash []) data ≥ f.config.coarseMinChangeBytes
    · rw [if_pos enough]
      exact ⟨iff_of_true rfl (.inr enough),rfl,rfl,kept⟩
    · rw [if_neg enough]
      refine ⟨iff_of_false Bool.false_ne_true (not_or.mpr ⟨empty,enough⟩),rfl,rfl,?_⟩
      intro other
      rw [if_neg (fun both => Bool.false_ne_true both.2)]

/-- The last delta of a path that was forwarded in a run. -/
def lastForwarded (pathHash : UInt32) (f : DeltaFilter) (calls : List Call) : Option Call :=
  (outputs step (forwards pathHash) f calls).getLast?

section
variable {config : ResolutionConfig} {pathHash : UInt32}

theorem lastForwarded_append (f : DeltaFilter) (calls : List Call) (c : Call) :
    lastForwarded pathHash f (calls ++ [c]) =
      if c.pathHash = pathHash ∧ ((run step f calls).shouldForward c.now c.pathHash c.data).2 = true then some c
      else lastForwarded pathHash f calls := by
  rw [lastForwarded,outputs_append]
  show (_ ++ (forwards pathHash _ c ++ [])).getLast? = _
  rw [List.append_nil,forwards]
  split
  · exact List.getLast?_concat
  · rw [List.append_nil]
    rfl

/-- The filter compares with the last delta that it forwarded. -/
theorem coarse_run (config : ResolutionConfig) (calls : List Call) :
    (run step (coarse config) calls).tier = .coarse ∧ (run step (coarse config) calls).config = config ∧
      ∀ pathHash, (run step (coarse config) calls).coarseStates.getD pathHash [] =
        ((lastForwarded pathHash (coarse config) calls).map Call.data).getD [] := by
  -- the last call of the run is the one that may have changed the filter
  induction calls using List.reverseRecOn with
  | nil => exact ⟨rfl,rfl,fun _ => by simp [coarse,lastForwarded,outputs]⟩
  | append_singleton calls c ih =>
    obtain ⟨tier,limits,last⟩ := ih
    obtain ⟨_,tier',limits',kept⟩ := checkChangeThreshold_eq (run step (coarse config) calls) c.pathHash c.data
    obtain ⟨forward,tier'',limits'',_,states⟩ :=
      record_eq ((run step (coarse config) calls).checkChangeThreshold c.pathHash c.data)
    have after : run step (coarse config) (calls ++ [c]) = step (run step (coarse config) calls) c := by
      rw [run_append]
      rfl
    rw [after,step,shouldForward_coarse tier]
    refine ⟨tier''.trans (tier'.trans tier),limits''.trans (limits'.trans limits),?_⟩
    intro pathHash
    rw [states,kept,lastForwarded_append,shouldForward_coarse tier,forward]
    split
    · rfl
    · exact last pathHash

end

/-- In the COARSE tier with the threshold `c`, a delta differs in fewer than `c` bytes
    from the last one forwarded of its path once it has been offered, and it is
    forwarded if it differs in `c` bytes or more from the last one before. -/
theorem coarse_staleness (config : ResolutionConfig) (positive : 1 ≤ config.coarseMinChangeBytes) (calls : List Call)
    (c : Call) :
    (∃ last, lastForwarded c.pathHash (coarse config) (calls ++ [c]) = some last ∧
      differing last.data c.data < config.coarseMinChangeBytes) ∧
    ∀ last, lastForwarded c.pathHash (coarse config) calls = some last →
      config.coarseMinChangeBytes ≤ differing last.data c.data →
      ((run step (coarse config) calls).shouldForward c.now c.pathHash c.data).2 = true := by
  obtain ⟨tier,limits,states⟩ := coarse_run config calls
  obtain ⟨passes,_⟩ := checkChangeThreshold_eq (run step (coarse config) calls) c.pathHash c.data
  obtain ⟨forward,_⟩ := record_eq ((run step (coarse config) calls).checkChangeThreshold c.pathHash c.data)
  rw [limits,states] at passes
  rw [lastForwarded_append,shouldForward_coarse tier,forward]
  constructor
  · by_cases forwarded : ((run step (coarse config) calls).checkChangeThreshold c.pathHash c.data).2 = true
    · refine ⟨c,if_pos ⟨rfl,forwarded⟩,?_⟩
      rw [differing_self]
      exact positive
    · rw [if_neg (fun both => forwarded both.2)]
      rw [passes,not_or] at forwarded
      obtain ⟨some',few⟩ := forwarded
      cases last : lastForwarded c.pathHash (coarse config) calls with
      | none =>
        rw [last] at some'
        exact absurd rfl some'
      | some last' =>
        rw [last] at few
        exact ⟨last',rfl,Nat.lt_of_not_le few⟩
  · intro last found enough
    rw [passes,found]
    exact .inr enough

/-- A change of a byte is not forwarded, and the next one that adds up to two is. -/
def drift : List Call := [⟨0,7,[1,1,1]⟩,⟨1,7,[1,1,2]⟩]

theorem coarse_staleness_drift :
    lastForwarded 7 (coarse { coarseMinChangeBytes := 2 }) drift = some ⟨0,7,[1,1,1]⟩ ∧
    ((run step (coarse { coarseMinChangeBytes := 2 }) drift).shouldForward 2 7 [1,3,2]).2 = true :=
  ⟨by decide +kernel,
    (coarse_staleness { coarseMinChangeBytes := 2 } (by decide) drift ⟨2,7,[1,3,2]⟩).2 ⟨0,7,[1,1,1]⟩ (by decide +kernel)
      (by decide)⟩

end Rom.FilterRuns
