import Mathlib.Algebra.Order.Floor.Semiring
import Mathlib.Data.Rat.Floor

/-!
The congestion controller: a regression over delay samples, a detector that turns its
slope into a signal, and a rate and a window that follow the signal. What the source
computes with `double` is computed here with rationals; its sums lose digits where
these do not, and the detector may come to another signal than here, so that what is
said of rate and window is said for any signal. A conversion to `uint32_t` of a value
that does not fit has no defined result; `wild` stands for whatever it gives.
-/
namespace Rom

/-- A `double` converted to `uint32_t`. -/
def toU32 (wild : ℚ → UInt32) (x : ℚ) : UInt32 := if -1 < x ∧ x < 2^32 then UInt32.ofNat ⌊x⌋₊ else wild x

inductive CongestionState where
  | slowStart
  | steady
  | drain
  deriving DecidableEq, Repr

inductive BandwidthUsage where
  | normal
  | overuse
  | underuse
  deriving DecidableEq, Repr

/-! ### Trendline -/

namespace TrendlineEstimator

structure Point where
  smoothedDelay : ℚ
  arrivalTime : ℚ
  deriving DecidableEq, Repr

def windowSize : Nat := 20
def smoothingCoeff : ℚ := 9 / 10

end TrendlineEstimator

structure TrendlineEstimator where
  window : List TrendlineEstimator.Point := []
  accumulatedDelay : ℚ := 0
  smoothedDelay : ℚ := 0
  slope : ℚ := 0
  count : Nat := 0
  deriving DecidableEq, Repr

namespace TrendlineEstimator

def computeSlope (window : List Point) : ℚ :=
  if window.length < 2 then 0
  else
    let n : ℚ := window.length
    let sumX := (window.map (·.arrivalTime)).sum
    let sumY := (window.map (·.smoothedDelay)).sum
    let sumXY := (window.map (fun p => p.arrivalTime * p.smoothedDelay)).sum
    let sumXX := (window.map (fun p => p.arrivalTime * p.arrivalTime)).sum
    let denom := n * sumXX - sumX * sumX
    if |denom| < 1 / 10^9 then 0 else (n * sumXY - sumX * sumY) / denom

/-- The estimator with a sample; the source also returns the slope. -/
def update (t : TrendlineEstimator) (arrivalDeltaMs sendDeltaMs nowMs : ℚ) : TrendlineEstimator :=
  let accumulatedDelay := t.accumulatedDelay + (arrivalDeltaMs - sendDeltaMs)
  let smoothedDelay := smoothingCoeff * t.smoothedDelay + (1 - smoothingCoeff) * accumulatedDelay
  let pushed := t.window ++ [⟨smoothedDelay,nowMs⟩]
  let window := if pushed.length > windowSize then pushed.tail else pushed
  { window := window
    accumulatedDelay := accumulatedDelay
    smoothedDelay := smoothedDelay
    slope := if window.length ≥ 2 then computeSlope window else t.slope
    count := t.count + 1 }

end TrendlineEstimator

/-! ### Detector -/

structure OveruseDetector where
  state : BandwidthUsage := .normal
  overuseTimer : ℚ := 0
  deriving DecidableEq, Repr

namespace OveruseDetector

def overuseThreshold : ℚ := 25 / 2
def underuseThreshold : ℚ := -25 / 2
def overuseTimeThresholdMs : ℚ := 10

/-- The detector with a slope; the source also returns the state. -/
def detect (d : OveruseDetector) (trendlineSlope : ℚ) : OveruseDetector :=
  if trendlineSlope > overuseThreshold then
    { state := if d.overuseTimer + 1 > overuseTimeThresholdMs then .overuse else d.state
      overuseTimer := d.overuseTimer + 1 }
  else if trendlineSlope < underuseThreshold then ⟨.underuse,0⟩
  else ⟨.normal,0⟩

end OveruseDetector

/-! ### Controller -/

structure CongestionController where
  state : CongestionState
  sendRateBps : UInt32
  cwnd : UInt32
  bytesInFlight : UInt32
  lastUpdateUs : UInt32
  trendline : TrendlineEstimator
  detector : OveruseDetector
  lastSendTsUs : UInt32
  lastArrivalTsUs : UInt32
  hasLastSample : Bool
  deriving DecidableEq, Repr

namespace CongestionController

def minRateBps : UInt32 := 10000
def initialRateBps : UInt32 := 300000
def maxRateBps : UInt32 := 100000000
def minCwnd : UInt32 := 2400
def initialCwnd : UInt32 := 15000
def multiplicativeDecrease : ℚ := 17 / 20
def additiveIncreaseBps : UInt32 := 8000

/-- The detector keeps its state. -/
def reset (c : CongestionController) : CongestionController :=
  { state := .slowStart
    sendRateBps := initialRateBps
    cwnd := initialCwnd
    bytesInFlight := 0
    lastUpdateUs := 0
    trendline := {}
    detector := c.detector
    lastSendTsUs := 0
    lastArrivalTsUs := 0
    hasLastSample := false }

def new : CongestionController :=
  reset ⟨.slowStart,initialRateBps,initialCwnd,0,0,{},{},0,0,false⟩

/-! The values that are converted. -/

def decreased (rate : UInt32) : ℚ := rate.toNat * multiplicativeDecrease
def grown (rate elapsedUs : UInt32) : ℚ := rate.toNat * (1 + elapsedUs.toNat / 1000000)
def increment (elapsedUs : UInt32) : ℚ := additiveIncreaseBps.toNat * (elapsedUs.toNat / 1000000)
def windowFor (rate rttUs : UInt32) : ℚ := rate.toNat * (rttUs.toNat / 1000000)

def clampRate (rate : UInt32) : UInt32 :=
  let rate := if rate < minRateBps then minRateBps else rate
  if rate > maxRateBps then maxRateBps else rate

section
variable (wild : ℚ → UInt32) (c : CongestionController)

/-- The switch of `update_rate`: the next state, and the rate before it is clamped. -/
def adjusted (usage : BandwidthUsage) (elapsedUs : UInt32) : CongestionState × UInt32 :=
  match c.state, usage with
  | .slowStart, .overuse => (.drain,toU32 wild (decreased c.sendRateBps))
  | .slowStart, _ => (.slowStart,toU32 wild (grown c.sendRateBps elapsedUs))
  | .steady, .overuse => (.drain,toU32 wild (decreased c.sendRateBps))
  | .steady, .normal => (.steady,c.sendRateBps + toU32 wild (increment elapsedUs))
  | .steady, .underuse => (.steady,c.sendRateBps)
  | .drain, .overuse => (.drain,c.sendRateBps)
  | .drain, _ => (.steady,c.sendRateBps)

def updateRate (usage : BandwidthUsage) (timestampUs : UInt32) : CongestionController :=
  let elapsedUs := timestampUs - c.lastUpdateUs
  if elapsedUs = 0 then c
  else { c with state := (c.adjusted wild usage elapsedUs).1, sendRateBps := clampRate (c.adjusted wild usage elapsedUs).2 }

def updateCwndFromRate (rttUs : UInt32) : CongestionController :=
  let newCwnd := toU32 wild (windowFor c.sendRateBps rttUs)
  { c with cwnd := if newCwnd < minCwnd then minCwnd else newCwnd }

/-- What is in flight without a packet. -/
def land (packetSize : UInt16) : CongestionController :=
  { c with bytesInFlight := if c.bytesInFlight ≥ packetSize.toUInt32 then c.bytesInFlight - packetSize.toUInt32 else 0 }

def onPacketSent (size : UInt16) : CongestionController := { c with bytesInFlight := c.bytesInFlight + size.toUInt32 }

/-- The first half of `on_ack_received`: the sample goes to the estimators. -/
def estimate (sendTsUs ackTsUs : UInt32) (ackDelayUs : UInt16) : CongestionController :=
  if c.hasLastSample then
    let sendDeltaMs : ℚ := (sendTsUs - c.lastSendTsUs).toNat / 1000
    let arrivalDeltaMs : ℚ := (ackTsUs - ackDelayUs.toUInt32 - c.lastArrivalTsUs).toNat / 1000
    let trendline := c.trendline.update arrivalDeltaMs sendDeltaMs (ackTsUs.toNat / 1000)
    { c with trendline := trendline, detector := c.detector.detect trendline.slope }
  else c

/-- Rate and window after a signal. -/
def follow (usage : BandwidthUsage) (sendTsUs ackTsUs : UInt32) : CongestionController :=
  let c := c.updateRate wild usage ackTsUs
  let rttUs := ackTsUs - sendTsUs
  if rttUs > 0 then c.updateCwndFromRate wild rttUs else c

/-- The second half of `on_ack_received`, with the signal that the first came to. -/
def onSignal (usage : BandwidthUsage) (sendTsUs ackTsUs : UInt32) (ackDelayUs packetSize : UInt16) : CongestionController :=
  let c := c.land packetSize
  let c := if c.hasLastSample then c.follow wild usage sendTsUs ackTsUs else c
  { c with
    lastSendTsUs := sendTsUs
    lastArrivalTsUs := ackTsUs - ackDelayUs.toUInt32
    hasLastSample := true
    lastUpdateUs := ackTsUs }

def onAckReceived (sendTsUs ackTsUs : UInt32) (ackDelayUs packetSize : UInt16) : CongestionController :=
  let c := c.estimate sendTsUs ackTsUs ackDelayUs
  c.onSignal wild c.detector.state sendTsUs ackTsUs ackDelayUs packetSize

/-- The rate that a loss leaves. -/
def lostRate : UInt32 :=
  let rate := toU32 wild (decreased c.sendRateBps)
  if rate < minRateBps then minRateBps else rate

def onPacketLost (timestampUs : UInt32) (packetSize : UInt16) : CongestionController :=
  let c := { c.land packetSize with state := .drain, sendRateBps := c.lostRate wild }
  { c.updateCwndFromRate wild 100000 with lastUpdateUs := timestampUs }

def canSend (packetSize : UInt16) : Bool := c.bytesInFlight + packetSize.toUInt32 ≤ c.cwnd

def pacingDelayUs : UInt32 :=
  if c.sendRateBps = 0 then 0 else toU32 wild (1200 / c.sendRateBps.toNat * 1000000)

end
end CongestionController
end Rom
