import SfuKit.Model.Ids

/-! # Delay-based and loss-based rate control

`DelayEstimator` (a scalar Kalman filter on the delay gradient) and
`LossEstimator` (a sliding window of packet outcomes), each with its additive
increase and its multiplicative decrease under a cooldown.
-/
namespace SfuKit

def minBitrateBps : ℚ := 30000
def maxBitrateBps : ℚ := 50000000

/-- `f64::clamp` between the bitrate floor and ceiling. -/
def clampBitrate (x : ℚ) : ℚ := max minBitrateBps (min x maxBitrateBps)

/-- `last.is_none_or(|t| now.duration_since(t) >= cooldown)`. -/
def cooledDown (last : Option Instant) (now : Instant) (cooldown : Duration) : Bool :=
  match last with
  | none => true
  | some t => decide (cooldown ≤ durationSince now t)

structure DelayEstimator where
  gradientUs : ℚ
  gradientVar : ℚ
  bitrateBps : ℚ
  lastDecrease : Option Instant
deriving DecidableEq

namespace DelayEstimator

def processNoiseVar : ℚ := 1 / 10000
def measurementNoiseVar : ℚ := 5 / 1000
def overuseThresholdUs : ℚ := 12500
def decreaseFactor : ℚ := 85 / 100
def additiveIncreaseBps : ℚ := 8000
def decreaseCooldown : Duration := fromMillis 200

def new (initialBitrateBps : ℚ) : DelayEstimator where
  gradientUs := 0
  gradientVar := 1
  bitrateBps := clampBitrate initialBitrateBps
  lastDecrease := none

/-- Feed one inter-arrival gradient sample, in microseconds. -/
def updateKalman (d : DelayEstimator) (gradientUs : ℚ) : DelayEstimator :=
  let var := d.gradientVar + processNoiseVar
  let gain := var / (var + measurementNoiseVar)
  { d with gradientUs := d.gradientUs + gain * (gradientUs - d.gradientUs)
           gradientVar := var * (1 - gain) }

def applyRateControl (d : DelayEstimator) (now : Instant) : DelayEstimator :=
  if overuseThresholdUs < d.gradientUs then
    if cooledDown d.lastDecrease now decreaseCooldown then
      { d with bitrateBps := max (d.bitrateBps * decreaseFactor) minBitrateBps
               lastDecrease := some now }
    else d
  else { d with bitrateBps := min (d.bitrateBps + additiveIncreaseBps) maxBitrateBps }

end DelayEstimator

structure LossEstimator where
  /-- Outcomes of the last packets, oldest first; `true` is received. -/
  window : List Bool
  bitrateBps : ℚ
  lastDecrease : Option Instant
deriving DecidableEq

namespace LossEstimator

def lossWindow : ℕ := 64
def lossHighThreshold : ℚ := 10 / 100
def lossLowThreshold : ℚ := 2 / 100
def lossDecreaseFactor : ℚ := 85 / 100
def lossDecreaseCooldown : Duration := fromMillis 250
def lossIncreaseBps : ℚ := 5000

def new (initialBitrateBps : ℚ) : LossEstimator where
  window := []
  bitrateBps := clampBitrate initialBitrateBps
  lastDecrease := none

def record (l : LossEstimator) (received : Bool) : LossEstimator :=
  let window := if lossWindow ≤ l.window.length then l.window.tail else l.window
  { l with window := window ++ [received] }

def lossFraction (l : LossEstimator) : ℚ :=
  if l.window = [] then 0
  else (l.window.countP (fun r => !r) : ℚ) / l.window.length

def applyRateControl (l : LossEstimator) (now : Instant) : LossEstimator :=
  if lossHighThreshold ≤ l.lossFraction then
    if cooledDown l.lastDecrease now lossDecreaseCooldown then
      { l with bitrateBps := max (l.bitrateBps * lossDecreaseFactor) minBitrateBps
               lastDecrease := some now }
    else l
  else if l.lossFraction < lossLowThreshold then
    { l with bitrateBps := min (l.bitrateBps + lossIncreaseBps) maxBitrateBps }
  else l

end LossEstimator

theorem minBitrate_le_clamp (x : ℚ) : minBitrateBps ≤ clampBitrate x := le_max_left _ _

theorem minBitrate_le_max : minBitrateBps ≤ maxBitrateBps := by
  norm_num [minBitrateBps, maxBitrateBps]

end SfuKit
