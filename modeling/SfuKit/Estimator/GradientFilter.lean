import SfuKit.Library.Kalman
import SfuKit.Estimator.RateController

/-! # What the delay filter makes of its samples

`update_kalman` is the scalar Kalman filter at the noise variances of the source, and rate
control leaves it alone. The filtered gradient is a weighted average of the samples and of the
zero it starts from, so it does not pass a threshold that no sample passes.
-/
namespace SfuKit

open Library Run

def DelayCall.sample : DelayCall → Option ℚ
  | updateKalman gradientUs => some gradientUs
  | applyRateControl _ => none

namespace DelayEstimator

def noise : Kalman.Noise ℚ where
  process := processNoiseVar
  measurement := measurementNoiseVar
  process_nonneg := by norm_num [processNoiseVar]
  measurement_pos := by norm_num [measurementNoiseVar]

def estimate (d : DelayEstimator) : Kalman.Estimate ℚ := ⟨d.gradientUs, d.gradientVar⟩

def gain (d : DelayEstimator) : ℚ :=
  (d.gradientVar + processNoiseVar) / (d.gradientVar + processNoiseVar + measurementNoiseVar)

theorem estimate_applyRateControl (d : DelayEstimator) (now : Instant) :
    (d.applyRateControl now).estimate = d.estimate := by
  unfold applyRateControl
  split_ifs <;> rfl

theorem estimate_call (d : DelayEstimator) (i : DelayCall) :
    (d.call i).estimate = i.sample.elim d.estimate (Kalman.update noise d.estimate) := by
  cases i with
  | updateKalman gradientUs => rfl
  | applyRateControl now => exact estimate_applyRateControl d now

/-- Over any calls the filter is a run of the scalar filter over the samples. -/
theorem estimate_run (d : DelayEstimator) (l : List DelayCall) :
    (run call d l).estimate =
      run (Kalman.update noise) d.estimate (l.filterMap DelayCall.sample) := by
  have hstep : ∀ (d : DelayEstimator) (i : DelayCall), True →
      (d.call i).estimate = run (Kalman.update noise) d.estimate i.sample.toList := by
    intro d i _
    rw [estimate_call]
    cases i.sample <;> rfl
  have hinv : ∀ (d : DelayEstimator) (i : DelayCall), True → True := fun _ _ h => h
  rw [List.filterMap_eq_flatMap_toList]
  exact view_run hinv hstep trivial l

theorem decrease_eq_none {d : DelayEstimator} (h : d.gradientUs ≤ overuseThresholdUs)
    (now : Instant) : d.decrease (.applyRateControl now) = none := by
  apply if_neg
  exact fun hover => absurd h (not_le.mpr hover.1)

theorem updateKalman_gradientUs (d : DelayEstimator) (z : ℚ) :
    (d.updateKalman z).gradientUs = d.gradientUs + d.gain * (z - d.gradientUs) := rfl

theorem gain_mem {d : DelayEstimator} (h : 0 < d.gradientVar) : 0 < d.gain ∧ d.gain < 1 :=
  ⟨Kalman.gain_pos noise (e := d.estimate) h, Kalman.gain_lt_one noise (e := d.estimate) h⟩

theorem bounded_run (initialBitrateBps : ℚ) (l : List DelayCall) :
    (controlled.rate (run call (new initialBitrateBps) l)).Bounded := by
  have hstart : controlled.paced.Valid (new initialBitrateBps) :=
    clampBitrate_bounded initialBitrateBps none
  exact controlled.paced.valid_run hstart l

theorem sound_run (initialBitrateBps : ℚ) (l : List DelayCall) :
    Kalman.Sound noise 0 (l.filterMap DelayCall.sample)
      (run call (new initialBitrateBps) l).estimate := by
  have hfirst : 0 < (new initialBitrateBps).estimate.var := zero_lt_one
  rw [estimate_run]
  exact Kalman.sound_run hfirst (l.filterMap DelayCall.sample)

/-- Over any calls: the variance and the gain keep their ranges, the filtered gradient is in the
convex hull of zero and the samples, and if no sample is above the threshold, rate control does
not lower the bitrate. -/
theorem gradient_run (initialBitrateBps : ℚ) (l : List DelayCall) :
    let d := run call (.new initialBitrateBps) l
    let samples := l.filterMap DelayCall.sample
    0 < d.gradientVar ∧
    (∀ z, (d.updateKalman z).gradientUs = d.gradientUs + d.gain * (z - d.gradientUs)) ∧
    0 < d.gain ∧ d.gain < 1 ∧
    (samples ≠ [] → d.gradientVar < measurementNoiseVar) ∧
    d.gradientUs ∈ convexHull ℚ (insert 0 {z | z ∈ samples}) ∧
    ((∀ z ∈ samples, z ≤ overuseThresholdUs) →
      ∀ now, d.bitrateBps ≤ (d.applyRateControl now).bitrateBps) := by
  intro d samples
  have hsound : Kalman.Sound noise 0 samples d.estimate := sound_run initialBitrateBps l
  have hbounded : (controlled.rate d).Bounded := bounded_run initialBitrateBps l
  clear_value d
  obtain ⟨hpos, hone⟩ := gain_mem hsound.var_pos
  refine ⟨hsound.var_pos, updateKalman_gradientUs d, hpos, hone, hsound.var_lt, hsound.mean_mem, ?_⟩
  intro hsamples now
  have hzero : 0 ≤ overuseThresholdUs := by norm_num [overuseThresholdUs]
  have hcalm := decrease_eq_none (hsound.mean_le hzero hsamples) now
  rw [← controlled_decrease] at hcalm
  have hle : (controlled.rate d).bitrateBps ≤
      (controlled.rate (d.call (.applyRateControl now))).bitrateBps :=
    controlled.le_rate_step hbounded hcalm
  exact hle

end DelayEstimator
end SfuKit
