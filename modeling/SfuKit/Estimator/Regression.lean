import SfuKit.Estimator.Trendline
import SfuKit.Library.Run

/-! # The trendline as a regression of one-way delay

Whatever losses come with the packets, the slope the detector computes is the least-squares
slope of the last one-way delays. It depends on differences of timestamps only, so the clocks
behind the arrival and the send times may start anywhere.
-/
namespace SfuKit

open Library Run Trend

/-- What `on_receive` is told about a packet. -/
structure Packet where
  arrivalMs : ℚ
  sendMs : ℚ
  lossFraction : ℚ

namespace Packet

/-- The one-way delay, on unrelated clocks. -/
def delay (p : Packet) : ℚ := p.arrivalMs - p.sendMs

def shift (a s : ℚ) (p : Packet) : Packet :=
  { p with arrivalMs := p.arrivalMs + a, sendMs := p.sendMs + s }

end Packet

namespace GoogCcEstimator

def receive (g : GoogCcEstimator) (p : Packet) : GoogCcEstimator :=
  (g.onReceive p.arrivalMs p.sendMs p.lossFraction).1

def targets : GoogCcEstimator → List Packet → List ℕ
  | _, [] => []
  | g, p :: l => (g.onReceive p.arrivalMs p.sendMs p.lossFraction).2 :: targets (g.receive p) l

/-- The estimators differ in their controllers only. -/
def SameTiming (g g' : GoogCcEstimator) : Prop :=
  g.trendline = g'.trendline ∧ g.lastArrivalMs = g'.lastArrivalMs ∧ g.lastSendMs = g'.lastSendMs

/-- What the detector makes of a packet has nothing to do with losses or bitrates. -/
theorem SameTiming.onReceive {g g' : GoogCcEstimator} (h : SameTiming g g') (a s loss loss' : ℚ) :
    SameTiming (g.onReceive a s loss).1 (g'.onReceive a s loss').1 := by
  obtain ⟨htrendline, harrival, hsend⟩ := h
  refine ⟨?_, rfl, rfl⟩
  unfold GoogCcEstimator.onReceive
  dsimp only
  rw [htrendline, harrival, hsend]

/-- So the detector is where the packets, fed without loss, take it. -/
theorem trendline_run (initialBps minBps maxBps : ℕ) (l : List Packet) :
    (run receive (withBounds initialBps minBps maxBps) l).trendline =
      (replay (l.map fun p => (p.arrivalMs, p.sendMs))).trendline := by
  have hstep : ∀ (g g' : GoogCcEstimator) (p : Packet), SameTiming g g' →
      SameTiming (g.receive p) (g'.onReceive p.arrivalMs p.sendMs 0).1 :=
    fun g g' p h => h.onReceive p.arrivalMs p.sendMs p.lossFraction 0
  have hstart : SameTiming (withBounds initialBps minBps maxBps) .new := ⟨rfl, rfl, rfl⟩
  exact (run_related hstep hstart l).1

def shift (a s : ℚ) (g : GoogCcEstimator) : GoogCcEstimator :=
  { g with lastArrivalMs := g.lastArrivalMs.map (· + a), lastSendMs := g.lastSendMs.map (· + s) }

theorem onReceive_shift (a s : ℚ) (g : GoogCcEstimator) (arrivalMs sendMs loss : ℚ) :
    (g.shift a s).onReceive (arrivalMs + a) (sendMs + s) loss =
      ((g.onReceive arrivalMs sendMs loss).1.shift a s, (g.onReceive arrivalMs sendMs loss).2) := by
  unfold onReceive shift
  cases g.lastArrivalMs with
  | none => rfl
  | some la =>
    cases g.lastSendMs with
    | none => rfl
    | some ls => simp

theorem targets_shift (a s : ℚ) (g : GoogCcEstimator) (l : List Packet) :
    (g.shift a s).targets (l.map (Packet.shift a s)) = g.targets l := by
  induction l generalizing g with
  | nil => rfl
  | cons p l ih =>
    have h := onReceive_shift a s g p.arrivalMs p.sendMs p.lossFraction
    rw [List.map_cons, targets, targets, receive, Packet.shift, h, ← ih]
    rfl

/-- The window of the detector, as the last delays. -/
theorem rtake_window (l : List ℚ) (h : l ≠ []) :
    l.tail.rtake TrendlineDetector.window = l.rtake (min (l.length - 1) 20) := by
  have hpos := List.length_pos_iff.mpr h
  have hwindow : TrendlineDetector.window = 20 := rfl
  unfold List.rtake
  rw [List.length_tail, hwindow, ← List.drop_one, List.drop_drop]
  congr 1
  omega

/-- From the fourth packet on, the detector divides by a number that is not zero and gets the one
least-squares slope of the last delays; and clocks that are ahead leave every target alone. -/
theorem regression_run (initialBps minBps maxBps : ℕ) (l : List Packet) :
    (4 ≤ l.length →
      let d := (run receive (withBounds initialBps minBps maxBps) l).trendline
      let delays := (l.map Packet.delay).rtake (min (l.length - 1) 20)
      d.denominator ≠ 0 ∧ d.trendlineSlope = d.numerator / d.denominator ∧
        ∀ k, LeastSquares delays k ↔ k = d.trendlineSlope) ∧
    ∀ a s, (withBounds initialBps minBps maxBps).targets (l.map (Packet.shift a s)) =
      (withBounds initialBps minBps maxBps).targets l := by
  constructor
  · intro hlen d delays
    have hd : d = (replay (l.map fun p => (p.arrivalMs, p.sendMs))).trendline :=
      trendline_run initialBps minBps maxBps l
    have hoffset : (l.map fun p => (p.arrivalMs, p.sendMs)).map offset = l.map Packet.delay := by
      rw [List.map_map]
      rfl
    have hdelays : (l.map Packet.delay).tail.rtake TrendlineDetector.window = delays := by
      have hne : l.map Packet.delay ≠ [] := by
        intro h
        rw [List.map_eq_nil_iff.mp h] at hlen
        simp at hlen
      have h := rtake_window _ hne
      rwa [List.length_map] at h
    have hthree : 3 ≤ d.deltas.length := by
      rw [hd, length_deltas_replay, hoffset]
      unfold List.rtake
      rw [List.length_drop, List.length_tail, List.length_map, TrendlineDetector.window]
      omega
    have hone := d.one_le_denominator hthree
    have hdiv := d.trendlineSlope_eq_div hthree
    have hslope : d.trendlineSlope = slope delays := by
      rw [hd] at hthree ⊢
      rw [trendlineSlope_replay _ hthree, hoffset, hdelays]
    have htwo : 2 ≤ delays.length := by
      dsimp only [delays]
      unfold List.rtake
      rw [List.length_drop, List.length_map]
      omega
    refine ⟨(zero_lt_one.trans_le hone).ne', hdiv, fun k => ?_⟩
    rw [hslope]
    exact leastSquares_iff htwo
  · exact fun a s => targets_shift a s (withBounds initialBps minBps maxBps) l

end GoogCcEstimator
end SfuKit
