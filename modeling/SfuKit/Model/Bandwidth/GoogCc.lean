import SfuKit.Model.Ids

/-! # The per-subscriber GoogCC estimator

`TrendlineDetector` fits a line to the accumulated delay over the last packet
pairs, `AimdController` holds the target bitrate, and `GoogCcEstimator` joins
them. The 8 % and 85 % products are exact and rounded down.
-/
namespace SfuKit

inductive BandwidthState where
  | underuse
  | normal
  | overuse
deriving DecidableEq, Repr

structure TrendlineDetector where
  /-- Rolling window of (arrival delta, send delta) pairs, oldest first. -/
  deltas : List (ℚ × ℚ)
  state : BandwidthState
deriving DecidableEq

namespace TrendlineDetector

def window : ℕ := 20
def overuseThreshold : ℚ := 25 / 2

def new : TrendlineDetector := ⟨[], .normal⟩

/-- The running sums of `arrival - send`, the `scan` of the source. -/
def accumulate (acc : ℚ) : List (ℚ × ℚ) → List ℚ
  | [] => []
  | (a, s) :: rest => (acc + (a - s)) :: accumulate (acc + (a - s)) rest

def trendlineSlope (d : TrendlineDetector) : ℚ :=
  let n : ℚ := d.deltas.length
  let accumulated := accumulate 0 d.deltas
  let xBar := (n - 1) / 2
  let yBar := accumulated.sum / n
  let num := (accumulated.zipIdx.map fun p => ((p.2 : ℚ) - xBar) * (p.1 - yBar)).sum
  let den := (accumulated.zipIdx.map fun p => ((p.2 : ℚ) - xBar) ^ 2).sum
  if |den| < 1 / 10000000000 then 0 else num / den

def update (d : TrendlineDetector) (arrivalDeltaMs sendDeltaMs : ℚ) : TrendlineDetector :=
  let deltas := if window ≤ d.deltas.length then d.deltas.tail else d.deltas
  let d := { d with deltas := deltas ++ [(arrivalDeltaMs, sendDeltaMs)] }
  if d.deltas.length < 3 then d
  else
    let slope := d.trendlineSlope
    { d with state := if overuseThreshold < slope then .overuse
                      else if slope < -overuseThreshold then .underuse
                      else .normal }

def overuse (d : TrendlineDetector) : Bool := d.state == .overuse

end TrendlineDetector

def googccInitialBps : ℕ := 500000
def googccMinBps : ℕ := 100000
def googccMaxBps : ℕ := 2500000

structure AimdController where
  bitrateBps : ℕ
  minBps : ℕ
  maxBps : ℕ
deriving DecidableEq, Repr

namespace AimdController

def lossLowThreshold : ℚ := 5 / 1000
def lossHighThreshold : ℚ := 2 / 100

def new (initialBps minBps maxBps : ℕ) : AimdController := ⟨initialBps, minBps, maxBps⟩

/-- `AimdController::update_loss`; returns the new target bitrate. -/
def updateLoss (c : AimdController) (lossFraction : ℚ) : AimdController × ℕ :=
  let lossFraction := max 0 (min lossFraction 1)
  let c :=
    if lossFraction < lossLowThreshold then
      let increase := c.bitrateBps * 8 / 100
      { c with bitrateBps := min (u64Add c.bitrateBps (max increase 8000)) c.maxBps }
    else if lossHighThreshold < lossFraction then
      { c with bitrateBps := max (c.bitrateBps * 85 / 100) c.minBps }
    else c
  (c, c.bitrateBps)

/-- Multiplicative decrease on trendline overuse. -/
def onOveruse (c : AimdController) : AimdController × ℕ :=
  let c := { c with bitrateBps := max (c.bitrateBps * 85 / 100) c.minBps }
  (c, c.bitrateBps)

def current (c : AimdController) : ℕ := c.bitrateBps

end AimdController

structure GoogCcEstimator where
  trendline : TrendlineDetector
  aimd : AimdController
  lastArrivalMs : Option ℚ
  lastSendMs : Option ℚ
deriving DecidableEq

namespace GoogCcEstimator

def withBounds (initialBps minBps maxBps : ℕ) : GoogCcEstimator where
  trendline := .new
  aimd := .new initialBps minBps maxBps
  lastArrivalMs := none
  lastSendMs := none

def new : GoogCcEstimator := withBounds googccInitialBps googccMinBps googccMaxBps

/-- `GoogCcEstimator::on_receive`; returns the updated target bitrate. -/
def onReceive (g : GoogCcEstimator) (arrivalMs sendMs lossFraction : ℚ) : GoogCcEstimator × ℕ :=
  let trendline :=
    match g.lastArrivalMs, g.lastSendMs with
    | some la, some ls => g.trendline.update (arrivalMs - la) (sendMs - ls)
    | _, _ => g.trendline
  let aimd :=
    if g.lastArrivalMs.isSome && g.lastSendMs.isSome && trendline.overuse then g.aimd.onOveruse
    else g.aimd.updateLoss lossFraction
  ({ trendline, aimd := aimd.1, lastArrivalMs := some arrivalMs, lastSendMs := some sendMs },
    aimd.2)

def currentBps (g : GoogCcEstimator) : ℕ := g.aimd.current

end GoogCcEstimator

structure AimdController.Bounded (c : AimdController) : Prop where
  min_eq : c.minBps = googccMinBps
  max_eq : c.maxBps = googccMaxBps
  min_le : googccMinBps ≤ c.bitrateBps
  le_max : c.bitrateBps ≤ googccMaxBps

end SfuKit
