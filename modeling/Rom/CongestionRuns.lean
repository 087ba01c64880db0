import Rom.Congestion
import Rom.Runs
import Mathlib.Tactic.Linarith
import Mathlib.Tactic.NormNum
import Mathlib.Tactic.Positivity

/-!
The congestion controller over a run of calls. The rate stays between its bounds and
the window at or above its own, whatever conversions that do not fit give, since what
is converted is clamped afterwards (`bounded_step`). Most conversions fit because the
rate is bounded; but in slow start the rate is multiplied by the time since the last
update, and the window is the rate times a round trip, and neither time is bounded.
Both fit if no more than 41949672 microseconds pass between updates in slow start and
no round trip takes more than 42949672, and at the highest rate a microsecond more is
too much (`rates_in_range`).
-/
namespace Rom.CongestionRuns
open Rom.Runs CongestionController

/-- The calls, with a signal for an acknowledgement that is not the detector's. -/
inductive Call where
  | packetSent (size : UInt16)
  | ackReceived (signal : Option BandwidthUsage) (sendTsUs ackTsUs : UInt32) (ackDelayUs packetSize : UInt16)
  | packetLost (timestampUs : UInt32) (packetSize : UInt16)
  deriving DecidableEq

/-- The signal that an acknowledgement gives. -/
def signalOf (c : CongestionController) (signal : Option BandwidthUsage) (sendTsUs ackTsUs : UInt32) (ackDelayUs : UInt16) :
    BandwidthUsage :=
  signal.getD (c.estimate sendTsUs ackTsUs ackDelayUs).detector.state

def step (wild : ℚ → UInt32) (c : CongestionController) : Call → CongestionController
  | .packetSent size => c.onPacketSent size
  | .ackReceived signal sendTsUs ackTsUs ackDelayUs packetSize =>
    (c.estimate sendTsUs ackTsUs ackDelayUs).onSignal wild (signalOf c signal sendTsUs ackTsUs ackDelayUs) sendTsUs ackTsUs
      ackDelayUs packetSize
  | .packetLost timestampUs packetSize => c.onPacketLost wild timestampUs packetSize

/-- With the detector's own signal, an acknowledgement is as in the source. -/
theorem step_detected (wild : ℚ → UInt32) (c : CongestionController) (sendTsUs ackTsUs : UInt32)
    (ackDelayUs packetSize : UInt16) :
    step wild c (.ackReceived none sendTsUs ackTsUs ackDelayUs packetSize) =
      c.onAckReceived wild sendTsUs ackTsUs ackDelayUs packetSize := rfl

structure Bounded (c : CongestionController) : Prop where
  low : 10000 ≤ c.sendRateBps.toNat
  high : c.sendRateBps.toNat ≤ 100000000
  window : 2400 ≤ c.cwnd.toNat

/-- What `updateRate` converts. -/
def rateConversions (c : CongestionController) (usage : BandwidthUsage) (timestampUs : UInt32) : List ℚ :=
  let elapsedUs := timestampUs - c.lastUpdateUs
  if elapsedUs = 0 then []
  else
    match c.state, usage with
    | .slowStart, .overuse => [decreased c.sendRateBps]
    | .slowStart, _ => [grown c.sendRateBps elapsedUs]
    | .steady, .overuse => [decreased c.sendRateBps]
    | .steady, .normal => [increment elapsedUs]
    | .steady, .underuse => []
    | .drain, _ => []

/-- What a call converts. -/
def converted (wild : ℚ → UInt32) (c : CongestionController) : Call → List ℚ
  | .packetSent _ => []
  | .ackReceived signal sendTsUs ackTsUs ackDelayUs _ =>
    let usage := signalOf c signal sendTsUs ackTsUs ackDelayUs
    let rttUs := ackTsUs - sendTsUs
    if c.hasLastSample then
      rateConversions c usage ackTsUs ++
        if rttUs > 0 then [windowFor (c.updateRate wild usage ackTsUs).sendRateBps rttUs] else []
    else []
  | .packetLost _ _ => [decreased c.sendRateBps,windowFor (c.lostRate wild) 100000]

/-- All that the call converts fits 32 bits. -/
def Fit (wild : ℚ → UInt32) (c : CongestionController) (call : Call) : Prop := ∀ x ∈ converted wild c call, x < 2^32

instance (wild : ℚ → UInt32) (c : CongestionController) (call : Call) : Decidable (Fit wild c call) :=
  inferInstanceAs (Decidable (∀ x ∈ converted wild c call, x < 2^32))

/-- An acknowledgement, but for the first, comes soon after its packet and, in slow
    start, soon after the last update. -/
def Soon (c : CongestionController) : Call → Prop
  | .ackReceived _ sendTsUs ackTsUs _ _ => c.hasLastSample = true →
    (c.state = .slowStart → (ackTsUs - c.lastUpdateUs).toNat ≤ 41949672) ∧ (ackTsUs - sendTsUs).toNat ≤ 42949672
  | _ => True

instance (c : CongestionController) (call : Call) : Decidable (Soon c call) :=
  match call with
  | .packetSent _ => instDecidableTrue
  | .ackReceived _ sendTsUs ackTsUs _ _ => inferInstanceAs (Decidable (c.hasLastSample = true →
    (c.state = .slowStart → (ackTsUs - c.lastUpdateUs).toNat ≤ 41949672) ∧ (ackTsUs - sendTsUs).toNat ≤ 42949672))
  | .packetLost _ _ => instDecidableTrue

/-! ### Conversions -/

section
variable (wild : ℚ → UInt32) {x : ℚ}

theorem toU32_toNat (nonneg : 0 ≤ x) (fits : x < 2^32) : (toU32 wild x).toNat = ⌊x⌋₊ := by
  have small : ⌊x⌋₊ < 2^32 := (Nat.floor_lt nonneg).mpr (by exact_mod_cast fits)
  rw [toU32,if_pos ⟨by linarith,fits⟩,UInt32.toNat_ofNat_of_lt' small]

/-- What fits does not depend on the conversions of what does not. -/
theorem toU32_wild (wild' : ℚ → UInt32) (nonneg : 0 ≤ x) (fits : x < 2^32) : toU32 wild' x = toU32 wild x := by
  have range : -1 < x ∧ x < 2^32 := ⟨by linarith,fits⟩
  rw [toU32,toU32,if_pos range,if_pos range]

end

section
variable (rate elapsedUs : UInt32)

theorem decreased_nonneg : 0 ≤ decreased rate := by
  rw [decreased,multiplicativeDecrease]
  positivity

theorem grown_nonneg : 0 ≤ grown rate elapsedUs := by
  rw [grown]
  positivity

theorem increment_nonneg : 0 ≤ increment elapsedUs := by
  rw [increment]
  positivity

theorem windowFor_nonneg : 0 ≤ windowFor rate elapsedUs := by
  rw [windowFor]
  positivity

theorem decreased_le : decreased rate ≤ rate.toNat := by
  have nonneg : (0 : ℚ) ≤ rate.toNat := Nat.cast_nonneg _
  rw [decreased,multiplicativeDecrease]
  linarith

theorem decreased_fits : decreased rate < 2^32 := by
  have small : (rate.toNat : ℚ) < 2^32 := by exact_mod_cast rate.toNat_lt
  exact lt_of_le_of_lt (decreased_le rate) small

theorem increment_fits : increment elapsedUs < 2^32 := by
  have small : (elapsedUs.toNat : ℚ) < 2^32 := by exact_mod_cast elapsedUs.toNat_lt
  have constant : (additiveIncreaseBps.toNat : ℚ) = 8000 := rfl
  rw [increment,constant]
  linarith

theorem grown_fits : grown rate elapsedUs < 2^32 ↔ rate.toNat * (1000000 + elapsedUs.toNat) < 2^32 * 1000000 := by
  have scaled : grown rate elapsedUs = ((rate.toNat * (1000000 + elapsedUs.toNat) : ℕ) : ℚ) / 1000000 := by
    rw [grown]
    push_cast
    ring
  rw [scaled,div_lt_iff₀ (by norm_num)]
  exact_mod_cast Iff.rfl

theorem windowFor_fits : windowFor rate elapsedUs < 2^32 ↔ rate.toNat * elapsedUs.toNat < 2^32 * 1000000 := by
  have scaled : windowFor rate elapsedUs = ((rate.toNat * elapsedUs.toNat : ℕ) : ℚ) / 1000000 := by
    rw [windowFor]
    push_cast
    ring
  rw [scaled,div_lt_iff₀ (by norm_num)]
  exact_mod_cast Iff.rfl

end

/-! ### Bounds -/

theorem clampRate_bounds (rate : UInt32) : 10000 ≤ (clampRate rate).toNat ∧ (clampRate rate).toNat ≤ 100000000 := by
  have low : minRateBps.toNat = 10000 := rfl
  have high : maxRateBps.toNat = 100000000 := rfl
  simp only [clampRate,gt_iff_lt,UInt32.lt_iff_toNat_lt,low,high]
  split
  · rw [low,if_neg (by omega),low]
    omega
  · split
    · rw [high]
      omega
    · omega

section
variable (wild : ℚ → UInt32) {c : CongestionController}

theorem bounded_estimate (bounded : Bounded c) (sendTsUs ackTsUs : UInt32) (ackDelayUs : UInt16) :
    Bounded (c.estimate sendTsUs ackTsUs ackDelayUs) := by
  rw [estimate]
  split
  · exact ⟨bounded.low,bounded.high,bounded.window⟩
  · exact bounded

theorem bounded_updateRate (bounded : Bounded c) (usage : BandwidthUsage) (timestampUs : UInt32) :
    Bounded (c.updateRate wild usage timestampUs) := by
  rw [updateRate]
  split
  · exact bounded
  · obtain ⟨low,high⟩ := clampRate_bounds (c.adjusted wild usage (timestampUs - c.lastUpdateUs)).2
    exact ⟨low,high,bounded.window⟩

theorem bounded_updateCwndFromRate (low : 10000 ≤ c.sendRateBps.toNat) (high : c.sendRateBps.toNat ≤ 100000000)
    (rttUs : UInt32) :
    Bounded (c.updateCwndFromRate wild rttUs) := by
  refine ⟨low,high,?_⟩
  rw [updateCwndFromRate]
  dsimp only
  split
  · exact Nat.le_refl _
  · next enough => exact UInt32.le_iff_toNat_le.mp (UInt32.not_lt.mp enough)

theorem bounded_follow (bounded : Bounded c) (usage : BandwidthUsage) (sendTsUs ackTsUs : UInt32) :
    Bounded (c.follow wild usage sendTsUs ackTsUs) := by
  have rated := bounded_updateRate wild bounded usage ackTsUs
  rw [follow]
  split
  · exact bounded_updateCwndFromRate wild rated.low rated.high _
  · exact rated

theorem bounded_onSignal (bounded : Bounded c) (usage : BandwidthUsage) (sendTsUs ackTsUs : UInt32)
    (ackDelayUs packetSize : UInt16) : Bounded (c.onSignal wild usage sendTsUs ackTsUs ackDelayUs packetSize) := by
  have landed : Bounded (c.land packetSize) := ⟨bounded.low,bounded.high,bounded.window⟩
  rw [onSignal]
  split
  · obtain ⟨low,high,window⟩ := bounded_follow wild landed usage sendTsUs ackTsUs
    exact ⟨low,high,window⟩
  · exact ⟨landed.low,landed.high,landed.window⟩

theorem lostRate_bounds (bounded : Bounded c) : 10000 ≤ (c.lostRate wild).toNat ∧ (c.lostRate wild).toNat ≤ 100000000 := by
  have cut : (toU32 wild (decreased c.sendRateBps)).toNat ≤ c.sendRateBps.toNat := by
    rw [toU32_toNat wild (decreased_nonneg _) (decreased_fits _)]
    exact Nat.floor_le_of_le (decreased_le _)
  rw [lostRate]
  split
  · exact ⟨Nat.le_refl _,by decide⟩
  · next enough => exact ⟨UInt32.le_iff_toNat_le.mp (UInt32.not_lt.mp enough),Nat.le_trans cut bounded.high⟩

theorem bounded_onPacketLost (bounded : Bounded c) (timestampUs : UInt32) (packetSize : UInt16) :
    Bounded (c.onPacketLost wild timestampUs packetSize) := by
  obtain ⟨low,high⟩ := lostRate_bounds wild bounded
  obtain ⟨low,high,window⟩ := bounded_updateCwndFromRate wild
    (c := { c.land packetSize with state := .drain, sendRateBps := c.lostRate wild }) low high 100000
  exact ⟨low,high,window⟩

/-- Every call keeps the bounds, whatever a conversion that does not fit gives. -/
theorem bounded_step (bounded : Bounded c) (call : Call) : Bounded (step wild c call) := by
  cases call with
  | packetSent size => exact ⟨bounded.low,bounded.high,bounded.window⟩
  | ackReceived signal sendTsUs ackTsUs ackDelayUs packetSize =>
    exact bounded_onSignal wild (bounded_estimate bounded sendTsUs ackTsUs ackDelayUs) _ _ _ _ _
  | packetLost timestampUs packetSize => exact bounded_onPacketLost wild bounded timestampUs packetSize

end

theorem bounded_new : Bounded new := ⟨by decide,by decide,by decide⟩

/-- With bounded rates, something can be sent whenever nothing is in flight, and the
    pauses between packets are between 12 microseconds and 120 milliseconds. -/
theorem bounded_sends {c : CongestionController} (bounded : Bounded c) :
    (c.bytesInFlight = 0 → ∀ size : UInt16, size.toNat ≤ 2400 → c.canSend size = true) ∧
    ∀ wild, 12 ≤ (c.pacingDelayUs wild).toNat ∧ (c.pacingDelayUs wild).toNat ≤ 120000 := by
  obtain ⟨low,high,window⟩ := bounded
  constructor
  · intro idle size small
    rw [canSend,idle,UInt32.zero_add,decide_eq_true_iff,UInt32.le_iff_toNat_le]
    exact Nat.le_trans small window
  · intro wild
    have rated : c.sendRateBps ≠ 0 := by
      intro zero
      rw [zero] at low
      exact absurd low (by decide)
    have slow : (10000 : ℚ) ≤ c.sendRateBps.toNat := by exact_mod_cast low
    have fast : (c.sendRateBps.toNat : ℚ) ≤ 100000000 := by exact_mod_cast high
    have positive : (0 : ℚ) < c.sendRateBps.toNat := by linarith
    have least : 12 ≤ 1200 / (c.sendRateBps.toNat : ℚ) * 1000000 := by
      rw [div_mul_eq_mul_div,le_div_iff₀ positive]
      linarith
    have most : 1200 / (c.sendRateBps.toNat : ℚ) * 1000000 ≤ 120000 := by
      rw [div_mul_eq_mul_div,div_le_iff₀ positive]
      linarith
    rw [pacingDelayUs,if_neg rated,toU32_toNat wild (by linarith) (by linarith)]
    exact ⟨Nat.le_floor (by exact_mod_cast least),Nat.floor_le_of_le (by exact_mod_cast most)⟩

/-! ### What fits -/

section
variable (wild : ℚ → UInt32) {c : CongestionController}

theorem grown_soon (bounded : Bounded c) {elapsedUs : UInt32} (soon : elapsedUs.toNat ≤ 41949672) :
    grown c.sendRateBps elapsedUs < 2^32 := by
  have product := Nat.mul_le_mul bounded.high (Nat.add_le_add_left soon 1000000)
  rw [grown_fits]
  omega

theorem window_soon {rate rttUs : UInt32} (high : rate.toNat ≤ 100000000) (soon : rttUs.toNat ≤ 42949672) :
    windowFor rate rttUs < 2^32 := by
  have product := Nat.mul_le_mul high soon
  rw [windowFor_fits]
  omega

/-- Of what `updateRate` converts, only the growth in slow start needs the time to be
    short. -/
theorem rateConversions_fit (bounded : Bounded c) (usage : BandwidthUsage) {timestampUs : UInt32}
    (soon : c.state = .slowStart → (timestampUs - c.lastUpdateUs).toNat ≤ 41949672) :
    ∀ x ∈ rateConversions c usage timestampUs, x < 2^32 := by
  unfold rateConversions
  by_cases same : timestampUs - c.lastUpdateUs = 0
  · rw [if_pos same]
    exact fun x member => by cases member
  · rw [if_neg same]
    cases state : c.state with
    | slowStart =>
      have fits := grown_soon bounded (soon state)
      cases usage with
      | overuse => simp [decreased_fits]
      | normal => simpa using fits
      | underuse => simpa using fits
    | steady =>
      cases usage with
      | overuse => simp [decreased_fits]
      | normal => simp [increment_fits]
      | underuse => simp
    | drain => simp

/-- What a loss converts fits. -/
theorem fit_packetLost (bounded : Bounded c) (timestampUs : UInt32) (packetSize : UInt16) :
    Fit wild c (.packetLost timestampUs packetSize) := by
  have high := (lostRate_bounds wild bounded).2
  intro x member
  rcases List.mem_cons.mp member with rfl | member
  · exact decreased_fits _
  · rw [List.mem_singleton.mp member]
    exact window_soon high (by decide)

/-- All that a call converts fits if acknowledgements come soon. -/
theorem fit_of_soon (bounded : Bounded c) {call : Call} (soon : Soon c call) : Fit wild c call := by
  cases call with
  | packetSent size => exact fun x member => by cases member
  | ackReceived signal sendTsUs ackTsUs ackDelayUs packetSize =>
    rw [Fit,converted]
    by_cases sampled : c.hasLastSample = true
    · obtain ⟨update,trip⟩ := soon sampled
      have rated := bounded_updateRate wild bounded (signalOf c signal sendTsUs ackTsUs ackDelayUs) ackTsUs
      rw [if_pos sampled,List.forall_mem_append]
      refine ⟨rateConversions_fit bounded _ update,?_⟩
      split
      · rw [List.forall_mem_singleton]
        exact window_soon rated.high trip
      · exact fun x member => by cases member
    · rw [if_neg sampled]
      exact fun x member => by cases member
  | packetLost timestampUs packetSize => exact fit_packetLost wild bounded timestampUs packetSize

end

/-! ### What does not matter -/

section
variable (wild wild' : ℚ → UInt32) {c : CongestionController}

theorem adjusted_wild (bounded : Bounded c) (usage : BandwidthUsage) {elapsedUs : UInt32}
    (soon : c.state = .slowStart → elapsedUs.toNat ≤ 41949672) :
    c.adjusted wild' usage elapsedUs = c.adjusted wild usage elapsedUs := by
  have cut := toU32_wild wild wild' (decreased_nonneg c.sendRateBps) (decreased_fits c.sendRateBps)
  have more := toU32_wild wild wild' (increment_nonneg elapsedUs) (increment_fits elapsedUs)
  unfold adjusted
  cases state : c.state with
  | slowStart =>
    have grows := toU32_wild wild wild' (grown_nonneg _ _) (grown_soon bounded (soon state))
    cases usage with
    | overuse => rw [cut]
    | normal => rw [grows]
    | underuse => rw [grows]
  | steady =>
    cases usage with
    | overuse => rw [cut]
    | normal => rw [more]
    | underuse => rfl
  | drain =>
    cases usage with
    | overuse => rfl
    | normal => rfl
    | underuse => rfl

theorem updateRate_wild (bounded : Bounded c) (usage : BandwidthUsage) {timestampUs : UInt32}
    (soon : c.state = .slowStart → (timestampUs - c.lastUpdateUs).toNat ≤ 41949672) :
    c.updateRate wild' usage timestampUs = c.updateRate wild usage timestampUs := by
  rw [updateRate,updateRate,adjusted_wild wild wild' bounded usage soon]

theorem updateCwndFromRate_wild (rttUs : UInt32) (high : c.sendRateBps.toNat ≤ 100000000)
    (soon : rttUs.toNat ≤ 42949672) : c.updateCwndFromRate wild' rttUs = c.updateCwndFromRate wild rttUs := by
  rw [updateCwndFromRate,updateCwndFromRate,toU32_wild wild wild' (windowFor_nonneg _ _) (window_soon high soon)]

theorem onSignal_wild (bounded : Bounded c) (usage : BandwidthUsage) {sendTsUs ackTsUs : UInt32}
    (ackDelayUs packetSize : UInt16)
    (soon : c.hasLastSample = true →
      (c.state = .slowStart → (ackTsUs - c.lastUpdateUs).toNat ≤ 41949672) ∧ (ackTsUs - sendTsUs).toNat ≤ 42949672) :
    c.onSignal wild' usage sendTsUs ackTsUs ackDelayUs packetSize =
      c.onSignal wild usage sendTsUs ackTsUs ackDelayUs packetSize := by
  have landed : Bounded (c.land packetSize) := ⟨bounded.low,bounded.high,bounded.window⟩
  rw [onSignal,onSignal]
  by_cases sampled : (c.land packetSize).hasLastSample = true
  · obtain ⟨update,trip⟩ := soon sampled
    have rated := bounded_updateRate wild landed usage ackTsUs
    rw [if_pos sampled,if_pos sampled,follow,follow,updateRate_wild wild wild' landed usage update,
      updateCwndFromRate_wild wild wild' _ rated.high trip]
  · rw [if_neg sampled,if_neg sampled]

theorem estimate_eq (c : CongestionController) (sendTsUs ackTsUs : UInt32) (ackDelayUs : UInt16) :
    ∃ trendline detector, c.estimate sendTsUs ackTsUs ackDelayUs =
      { c with trendline := trendline, detector := detector } := by
  rw [estimate]
  split
  · exact ⟨_,_,rfl⟩
  · exact ⟨c.trendline,c.detector,rfl⟩

/-- Where acknowledgements come soon, a step does not depend on what conversions that
    do not fit give. -/
theorem step_wild (bounded : Bounded c) {call : Call} (soon : Soon c call) : step wild' c call = step wild c call := by
  cases call with
  | packetSent size => rfl
  | ackReceived signal sendTsUs ackTsUs ackDelayUs packetSize =>
    have estimated := bounded_estimate bounded sendTsUs ackTsUs ackDelayUs
    obtain ⟨trendline,detector,same⟩ := estimate_eq c sendTsUs ackTsUs ackDelayUs
    rw [step,step]
    rw [same] at estimated ⊢
    exact onSignal_wild wild wild' estimated _ _ _ soon
  | packetLost timestampUs packetSize =>
    have cut : c.lostRate wild' = c.lostRate wild := by
      rw [lostRate,lostRate,toU32_wild wild wild' (decreased_nonneg _) (decreased_fits _)]
    have cwnd := updateCwndFromRate_wild wild wild'
      (c := { c.land packetSize with state := .drain, sendRateBps := c.lostRate wild })
      100000 (lostRate_bounds wild bounded).2 (by decide)
    rw [step,step,onPacketLost,onPacketLost,cut,cwnd]

end

section
variable (wild : ℚ → UInt32) (calls : List Call)

theorem bounded_run : Everywhere (step wild) Bounded new calls :=
  everywhere_of_forall (fun _ call bounded => bounded_step wild bounded call) bounded_new

theorem run_wild (soon : Along (step wild) Soon new calls) (wild' : ℚ → UInt32) :
    run (step wild') new calls = run (step wild) new calls :=
  soon.run_congr (fun _ call bounded => bounded_step wild bounded call)
    (fun _ _ bounded soon => step_wild wild wild' bounded soon) bounded_new

end

/-! ### The limits are sharp -/

/-- Three acknowledgements that come soon take the rate to its highest. -/
def climb : List Call :=
  [.ackReceived (some .normal) 0 0 0 0,.ackReceived (some .normal) 41949672 41949672 0 0,
    .ackReceived (some .normal) 83899344 83899344 0 0]

theorem climb_soon (wild : ℚ → UInt32) : Along (step wild) Soon new climb := by
  refine ⟨fun sampled => (by cases sampled),fun _ => ⟨fun _ => ?_,by decide⟩,fun _ => ⟨fun _ => ?_,by decide⟩,trivial⟩
  · show ((41949672 : UInt32) - 0).toNat ≤ 41949672
    decide
  · show ((83899344 : UInt32) - 41949672).toNat ≤ 41949672
    decide

theorem clampRate_highest {rate : UInt32} (high : 100000000 ≤ rate.toNat) : clampRate rate = 100000000 := by
  have above : ¬ rate < minRateBps := by
    rw [UInt32.lt_iff_toNat_lt]
    exact Nat.not_lt.mpr (Nat.le_trans (by decide) high)
  rw [clampRate,if_neg above]
  split
  · rfl
  · next most =>
    rw [gt_iff_lt,UInt32.lt_iff_toNat_lt,Nat.not_lt] at most
    exact UInt32.toNat_inj.mp (Nat.le_antisymm most high)

/-- At the highest rate and in slow start, the rate stays where it is. -/
theorem updateRate_highest (wild : ℚ → UInt32) {c : CongestionController} (state : c.state = .slowStart)
    (highest : c.sendRateBps = 100000000) {timestampUs : UInt32} (soon : (timestampUs - c.lastUpdateUs).toNat ≤ 41949672) :
    (c.updateRate wild .normal timestampUs).sendRateBps = 100000000 := by
  rw [updateRate]
  split
  · exact highest
  · apply clampRate_highest
    have fits : grown c.sendRateBps (timestampUs - c.lastUpdateUs) < 2^32 := by
      rw [grown_fits,highest,show (100000000 : UInt32).toNat = 100000000 from rfl]
      omega
    have more : (100000000 : ℚ) ≤ grown c.sendRateBps (timestampUs - c.lastUpdateUs) := by
      have nonneg : (0 : ℚ) ≤ (timestampUs - c.lastUpdateUs).toNat := Nat.cast_nonneg _
      rw [grown,highest,show ((100000000 : UInt32).toNat : ℚ) = 100000000 from rfl]
      linarith
    unfold adjusted
    rw [state]
    show 100000000 ≤ (toU32 wild _).toNat
    rw [toU32_toNat wild (grown_nonneg _ _) fits]
    exact Nat.le_floor (by exact_mod_cast more)

/-- In slow start at the highest rate, an acknowledgement that comes a microsecond too
    late after the last update or after its packet converts what does not fit. -/
theorem late_overflows (wild : ℚ → UInt32) {c : CongestionController} (sampled : c.hasLastSample = true)
    (state : c.state = .slowStart) (highest : c.sendRateBps = 100000000) {sendTsUs ackTsUs : UInt32}
    (late : 41949672 < (ackTsUs - c.lastUpdateUs).toNat ∨ 42949672 < (ackTsUs - sendTsUs).toNat)
    (ackDelayUs packetSize : UInt16) :
    ¬ Fit wild c (.ackReceived (some .normal) sendTsUs ackTsUs ackDelayUs packetSize) := by
  intro fit
  rw [Fit,converted,if_pos sampled,List.forall_mem_append] at fit
  obtain ⟨rate,window⟩ := fit
  have top : (100000000 : UInt32).toNat = 100000000 := rfl
  by_cases soon : (ackTsUs - c.lastUpdateUs).toNat ≤ 41949672
  · have trip : 42949672 < (ackTsUs - sendTsUs).toNat := late.resolve_left (Nat.not_lt.mpr soon)
    have later : ackTsUs - sendTsUs > 0 := UInt32.lt_iff_toNat_lt.mpr (Nat.lt_of_le_of_lt (Nat.zero_le _) trip)
    rw [if_pos later,List.forall_mem_singleton,
      show signalOf c (some .normal) sendTsUs ackTsUs ackDelayUs = .normal from rfl,
      updateRate_highest wild state highest soon,windowFor_fits,top] at window
    omega
  · have moved : ackTsUs - c.lastUpdateUs ≠ 0 := by
      intro same
      rw [same] at soon
      exact soon (by decide)
    have grows : grown c.sendRateBps (ackTsUs - c.lastUpdateUs) < 2^32 := by
      refine rate _ ?_
      unfold rateConversions
      rw [if_neg moved,state]
      exact List.mem_singleton_self _
    rw [grown_fits,highest,top] at grows
    omega

/-- On every run, with whatever signals: the rate and the window keep their bounds; and
    where acknowledgements come soon, all that is converted fits 32 bits, and it does
    not matter what conversions that do not fit give. Once the rate is at its highest,
    in slow start, no later acknowledgement would do. -/
theorem rates_in_range (wild : ℚ → UInt32) (calls : List Call) :
    Everywhere (step wild) Bounded new calls ∧
    (Along (step wild) Soon new calls →
      Along (step wild) (Fit wild) new calls ∧ ∀ wild', run (step wild') new calls = run (step wild) new calls) ∧
    ∃ before, Along (step wild) Soon new before ∧
      ∀ sendTsUs ackTsUs : UInt32,
        let c := run (step wild) new before
        41949672 < (ackTsUs - c.lastUpdateUs).toNat ∨ 42949672 < (ackTsUs - sendTsUs).toNat →
          ¬ Fit wild c (.ackReceived (some .normal) sendTsUs ackTsUs 0 0) := by
  refine ⟨bounded_run wild calls,fun soon => ⟨?_,run_wild wild calls soon⟩,climb,climb_soon wild,?_⟩
  · exact soon.imp (fun _ call bounded => bounded_step wild bounded call)
      (fun _ _ bounded soon => fit_of_soon wild bounded soon) bounded_new
  · intro sendTsUs ackTsUs c late
    have same : c = run (step fun _ => 0) new climb := (run_wild wild climb (climb_soon wild) (fun _ => 0)).symm
    have top : c.hasLastSample = true ∧ c.state = .slowStart ∧ c.sendRateBps = 100000000 := by
      rw [same]
      decide +kernel
    exact late_overflows wild top.1 top.2.1 top.2.2 late 0 0

/-- Acknowledgements a minute apart, each ten milliseconds after its packet. -/
def minutes : List Call :=
  [.ackReceived none 0 10000 0 0,.ackReceived none 60000000 60010000 0 0,.ackReceived none 120000000 120010000 0 0,
    .ackReceived none 180000000 180010000 0 0]

/-- In slow start, such acknowledgements and the detector's own signals make the rate
    grow to more than fits; and so does a round trip of a minute the window. -/
theorem minutes_overflow :
    ¬ Along (step fun _ => 0) (Fit fun _ => 0) new minutes ∧
    ¬ Along (step fun _ => 0) (Fit fun _ => 0) new
      [.ackReceived none 0 10000 0 0,.ackReceived none 60000000 60010000 0 0,.ackReceived none 60000000 120010000 0 0] := by
  decide +kernel

end Rom.CongestionRuns
