import SfuKit.Library.Cooldown
import SfuKit.Model.Bandwidth.RateControl

/-! # How fast rate control can lower a bitrate

The delay and the loss estimator share a controller: a multiplicative decrease on congestion,
at most one for each cooldown, and an additive increase on a clear link. They differ in its
constants and in the measurement that they judge the link by.
-/
namespace SfuKit

open Library Run Cooldown

theorem cooledDown_iff {last : Option Instant} {now : Instant} {cooldown : Duration}
    (h : 0 < cooldown) : cooledDown last now cooldown = true ↔ ∀ t ∈ last, t + cooldown ≤ now := by
  have hsub (t n c : ℕ) (hc : 0 < c) : c ≤ n - t ↔ t + c ≤ n := by omega
  cases last with
  | none => simp [cooledDown]
  | some t =>
    rw [cooledDown, decide_eq_true_iff, durationSince, hsub t now cooldown h]
    simp

/-- What rate control changes of an estimator. -/
structure Rate where
  bitrateBps : ℚ
  lastDecrease : Option Instant

structure Rate.Bounded (r : Rate) : Prop where
  min_le : minBitrateBps ≤ r.bitrateBps
  le_max : r.bitrateBps ≤ maxBitrateBps

/-- What a call of rate control goes by. -/
structure Verdict where
  now : Instant
  congested : Bool
  clear : Bool

structure Controller where
  factor : ℚ
  increaseBps : ℚ
  cooldown : Duration
  factor_nonneg : 0 ≤ factor
  factor_le_one : factor ≤ 1
  increase_nonneg : 0 ≤ increaseBps
  cooldown_pos : 0 < cooldown

namespace Controller
variable (C : Controller)

/-- The instant of the multiplicative decrease of a call, if it makes one. -/
def decrease (r : Rate) (v : Verdict) : Option Instant :=
  if v.congested && cooledDown r.lastDecrease v.now C.cooldown then some v.now else none

def control (r : Rate) (v : Verdict) : Rate :=
  if v.congested then
    if cooledDown r.lastDecrease v.now C.cooldown then
      { bitrateBps := max (r.bitrateBps * C.factor) minBitrateBps, lastDecrease := some v.now }
    else r
  else if v.clear then { r with bitrateBps := min (r.bitrateBps + C.increaseBps) maxBitrateBps }
  else r

variable {C} {r : Rate} {v : Verdict}

theorem control_of_decrease {t : Instant} (h : C.decrease r v = some t) :
    C.control r v = ⟨max (r.bitrateBps * C.factor) minBitrateBps, some t⟩ := by
  unfold decrease at h
  split_ifs at h with hcond
  obtain ⟨hcongested, hcooled⟩ := Bool.and_eq_true_iff.mp hcond
  obtain rfl := Option.some.inj h
  rw [control, if_pos hcongested, if_pos hcooled]

theorem control_of_no_decrease (hr : r.Bounded) (h : C.decrease r v = none) :
    (C.control r v).lastDecrease = r.lastDecrease ∧
      r.bitrateBps ≤ (C.control r v).bitrateBps ∧ (C.control r v).Bounded := by
  have hcond : ¬ (v.congested && cooledDown r.lastDecrease v.now C.cooldown) = true := by
    intro hcond
    rw [decrease, if_pos hcond] at h
    cases h
  unfold control
  split_ifs with hcongested hcooled hclear
  · exact absurd (Bool.and_eq_true_iff.mpr ⟨hcongested, hcooled⟩) hcond
  · exact ⟨rfl, le_rfl, hr⟩
  · have hraised : r.bitrateBps ≤ min (r.bitrateBps + C.increaseBps) maxBitrateBps := by
      apply le_min _ hr.le_max
      exact le_add_of_nonneg_right C.increase_nonneg
    exact ⟨rfl, hraised, hr.min_le.trans hraised, min_le_right _ _⟩
  · exact ⟨rfl, le_rfl, hr⟩

theorem control_lastDecrease :
    (C.control r v).lastDecrease = (C.decrease r v).or r.lastDecrease := by
  unfold decrease control
  split_ifs <;> simp_all

theorem decrease_cooled {t : Instant} (h : C.decrease r v = some t) :
    ∀ t₀ ∈ r.lastDecrease, t₀ + C.cooldown ≤ t := by
  unfold decrease at h
  split_ifs at h with hcond
  obtain rfl := Option.some.inj h
  exact (cooledDown_iff C.cooldown_pos).mp (Bool.and_eq_true_iff.mp hcond).2

theorem control_bounded (hr : r.Bounded) : (C.control r v).Bounded := by
  cases hd : C.decrease r v with
  | none => exact (control_of_no_decrease hr hd).2.2
  | some t =>
    rw [control_of_decrease hd]
    refine ⟨le_max_right _ _, max_le ?_ minBitrate_le_max⟩
    have hnonneg : 0 ≤ r.bitrateBps := by
      apply le_trans _ hr.min_le
      norm_num [minBitrateBps]
    exact (mul_le_of_le_one_right hnonneg C.factor_le_one).trans hr.le_max

end Controller

/-- A system whose steps change a rate by calls of a controller, and not otherwise. -/
structure Controlled {σ ι : Type*} (step : σ → ι → σ) (C : Controller) where
  rate : σ → Rate
  verdict : σ → ι → Option Verdict
  rate_step : ∀ s i, rate (step s i) = (verdict s i).elim (rate s) (C.control (rate s))

namespace Controlled
variable {σ ι : Type*} {step : σ → ι → σ} {C : Controller} (S : Controlled step C)

def decrease (s : σ) (i : ι) : Option Instant := (S.verdict s i).bind (C.decrease (S.rate s))

theorem mem_verdict_of_decrease {s : σ} {i : ι} {t : Instant} (h : t ∈ S.decrease s i) :
    t ∈ (S.verdict s i).map Verdict.now := by
  obtain ⟨v, hv, ht⟩ := Option.bind_eq_some_iff.mp h
  unfold Controller.decrease at ht
  split_ifs at ht with hcond
  rw [hv]
  exact ht

theorem bounded_step {s : σ} {i : ι} (h : (S.rate s).Bounded) :
    (S.rate (step s i)).Bounded := by
  rw [S.rate_step]
  cases S.verdict s i with
  | none => exact h
  | some v => exact Controller.control_bounded h

theorem rate_step_of_decrease {s : σ} {i : ι} {t : Instant} (h : S.decrease s i = some t) :
    (S.rate (step s i)).bitrateBps = max ((S.rate s).bitrateBps * C.factor) minBitrateBps := by
  obtain ⟨v, hv, ht⟩ := Option.bind_eq_some_iff.mp h
  rw [S.rate_step, hv, Option.elim_some, Controller.control_of_decrease ht]

theorem le_rate_step {s : σ} {i : ι} (hs : (S.rate s).Bounded) (h : S.decrease s i = none) :
    (S.rate s).bitrateBps ≤ (S.rate (step s i)).bitrateBps := by
  rw [S.rate_step]
  unfold decrease at h
  cases hv : S.verdict s i with
  | none => exact le_rfl
  | some v =>
    rw [hv, Option.bind_some] at h
    exact (Controller.control_of_no_decrease hs h).2.1

theorem lastDecrease_step (s : σ) (i : ι) : (S.rate (step s i)).lastDecrease =
    (S.decrease s i).or (S.rate s).lastDecrease := by
  rw [S.rate_step, decrease]
  cases S.verdict s i with
  | none => rfl
  | some v => exact Controller.control_lastDecrease

def paced : Paced step C.cooldown C.factor where
  Valid s := (S.rate s).Bounded
  level s := (S.rate s).bitrateBps
  last s := (S.rate s).lastDecrease
  drop := S.decrease
  cooldown_pos := C.cooldown_pos
  factor_nonneg := C.factor_nonneg
  factor_le_one := C.factor_le_one
  valid_step _ _ := S.bounded_step
  level_nonneg s hs := by
    apply le_trans _ hs.min_le
    norm_num [minBitrateBps]
  last_step := S.lastDecrease_step
  cooled s i t ht := by
    obtain ⟨v, -, hvt⟩ := Option.bind_eq_some_iff.mp ht
    exact Controller.decrease_cooled hvt
  level_kept _ _ hs h := S.le_rate_step hs h
  level_dropped s i hs h := by
    obtain ⟨t, ht⟩ := Option.isSome_iff_exists.mp h
    rw [S.rate_step_of_decrease ht]
    exact le_max_left _ _

end Controlled

/-- What runs from `s` promise of a bitrate: it stays in its range and falls by multiplicative
decreases only, these keep the cooldown, and over calls within a time span few of them fit. -/
structure DecreasesPaced {σ ι : Type*} (step : σ → ι → σ) (bitrateBps : σ → ℚ)
    (decrease : σ → ι → Option Instant) (clock : ι → Option Instant) (factor : ℚ)
    (cooldown : Duration) (s : σ) : Prop where
  bounded : ∀ l, minBitrateBps ≤ bitrateBps (run step s l) ∧
    bitrateBps (run step s l) ≤ maxBitrateBps
  decreased : ∀ l i, (decrease (run step s l) i).isSome →
    bitrateBps (run step s (l ++ [i])) = max (bitrateBps (run step s l) * factor) minBitrateBps
  kept : ∀ l i, decrease (run step s l) i = none →
    bitrateBps (run step s l) ≤ bitrateBps (run step s (l ++ [i]))
  spaced : ∀ l, (outputs step decrease s l).Pairwise fun t₁ t₂ => t₁ + cooldown ≤ t₂
  floor : ∀ l m start span, (∀ t ∈ m.filterMap clock, start ≤ t ∧ t ≤ start + span) →
    max minBitrateBps (bitrateBps (run step s l) * factor ^ (1 + span / cooldown)) ≤
      bitrateBps (run step s (l ++ m))

theorem Controlled.decreasesPaced {σ ι : Type*} {step : σ → ι → σ} {C : Controller}
    (S : Controlled step C) {clock : ι → Option Instant}
    (hclock : ∀ s i, (S.verdict s i).map Verdict.now = clock i) {s : σ}
    (hs : (S.rate s).Bounded) :
    DecreasesPaced step (fun s => (S.rate s).bitrateBps) S.decrease clock C.factor C.cooldown s where
  bounded l := by
    have h : (S.rate (run step s l)).Bounded := S.paced.valid_run hs l
    exact ⟨h.min_le, h.le_max⟩
  decreased l i h := by
    obtain ⟨t, ht⟩ := Option.isSome_iff_exists.mp h
    rw [run_concat]
    exact S.rate_step_of_decrease ht
  kept l i h := by
    rw [run_concat]
    exact S.le_rate_step (S.paced.valid_run hs l) h
  spaced l := S.paced.drops_pairwise s l
  floor l m start span h := by
    have hl := S.paced.valid_run hs l
    have hm : (S.rate (run step s (l ++ m))).Bounded := S.paced.valid_run hs (l ++ m)
    refine max_le hm.min_le ?_
    have hnow : ∀ s i, ∀ t ∈ S.decrease s i, t ∈ clock i := by
      intro s i t ht
      rw [← hclock]
      exact S.mem_verdict_of_decrease ht
    rw [run_append]
    exact S.paced.level_run_span hl fun t ht => h t (mem_of_mem_outputs hnow ht)

theorem clampBitrate_bounded (x : ℚ) (last : Option Instant) :
    Rate.Bounded ⟨clampBitrate x, last⟩ where
  min_le := minBitrate_le_clamp x
  le_max := max_le minBitrate_le_max (min_le_right _ _)

inductive DelayCall where
  | updateKalman (gradientUs : ℚ)
  | applyRateControl (now : Instant)

def DelayCall.clock : DelayCall → Option Instant
  | updateKalman _ => none
  | applyRateControl now => some now

namespace DelayEstimator

def call (d : DelayEstimator) : DelayCall → DelayEstimator
  | .updateKalman gradientUs => d.updateKalman gradientUs
  | .applyRateControl now => d.applyRateControl now

def decrease (d : DelayEstimator) : DelayCall → Option Instant
  | .updateKalman _ => none
  | .applyRateControl now =>
    if overuseThresholdUs < d.gradientUs ∧ cooledDown d.lastDecrease now decreaseCooldown then
      some now
    else none

def controller : Controller where
  factor := decreaseFactor
  increaseBps := additiveIncreaseBps
  cooldown := decreaseCooldown
  factor_nonneg := by norm_num [decreaseFactor]
  factor_le_one := by norm_num [decreaseFactor]
  increase_nonneg := by norm_num [additiveIncreaseBps]
  cooldown_pos := by decide

/-- The delay estimator is a controlled system, which takes every gradient up to the threshold
for a clear link. -/
def controlled : Controlled call controller where
  rate d := ⟨d.bitrateBps, d.lastDecrease⟩
  verdict d i := i.clock.map fun now => ⟨now, decide (overuseThresholdUs < d.gradientUs), true⟩
  rate_step d i := by
    cases i with
    | updateKalman gradientUs => rfl
    | applyRateControl now =>
      simp only [call, DelayCall.clock, Option.map_some, Option.elim_some]
      unfold applyRateControl Controller.control
      simp only [decide_eq_true_eq, controller]
      split_ifs <;> simp_all

theorem controlled_decrease : controlled.decrease = decrease := by
  funext d i
  cases i with
  | updateKalman gradientUs => rfl
  | applyRateControl now => simp [Controlled.decrease, Controller.decrease, controlled, decrease,
      DelayCall.clock, controller]

end DelayEstimator

inductive LossCall where
  | record (received : Bool)
  | applyRateControl (now : Instant)

def LossCall.clock : LossCall → Option Instant
  | record _ => none
  | applyRateControl now => some now

namespace LossEstimator

def call (l : LossEstimator) : LossCall → LossEstimator
  | .record received => l.record received
  | .applyRateControl now => l.applyRateControl now

def decrease (l : LossEstimator) : LossCall → Option Instant
  | .record _ => none
  | .applyRateControl now =>
    if lossHighThreshold ≤ l.lossFraction ∧
        cooledDown l.lastDecrease now lossDecreaseCooldown then some now
    else none

def controller : Controller where
  factor := lossDecreaseFactor
  increaseBps := lossIncreaseBps
  cooldown := lossDecreaseCooldown
  factor_nonneg := by norm_num [lossDecreaseFactor]
  factor_le_one := by norm_num [lossDecreaseFactor]
  increase_nonneg := by norm_num [lossIncreaseBps]
  cooldown_pos := by decide

/-- The loss estimator is a controlled system, with a range of losses that it holds at. -/
def controlled : Controlled call controller where
  rate l := ⟨l.bitrateBps, l.lastDecrease⟩
  verdict l i := i.clock.map fun now =>
    ⟨now, decide (lossHighThreshold ≤ l.lossFraction), decide (l.lossFraction < lossLowThreshold)⟩
  rate_step l i := by
    cases i with
    | record received => rfl
    | applyRateControl now =>
      simp only [call, LossCall.clock, Option.map_some, Option.elim_some]
      unfold applyRateControl Controller.control
      simp only [decide_eq_true_eq, controller]
      split_ifs <;> simp_all

theorem controlled_decrease : controlled.decrease = decrease := by
  funext l i
  cases i with
  | record received => rfl
  | applyRateControl now => simp [Controlled.decrease, Controller.decrease, controlled, decrease,
      LossCall.clock, controller]

end LossEstimator

/-- Both estimators pace their decreases over any calls, whatever bitrate they start with. -/
theorem estimators_decreasesPaced (initialBitrateBps : ℚ) :
    DecreasesPaced DelayEstimator.call DelayEstimator.bitrateBps DelayEstimator.decrease
      DelayCall.clock (85 / 100) (fromMillis 200) (.new initialBitrateBps) ∧
    DecreasesPaced LossEstimator.call LossEstimator.bitrateBps LossEstimator.decrease
      LossCall.clock (85 / 100) (fromMillis 250) (.new initialBitrateBps) := by
  constructor
  · rw [← DelayEstimator.controlled_decrease]
    apply DelayEstimator.controlled.decreasesPaced
    · intro d i
      cases i <;> rfl
    · exact clampBitrate_bounded initialBitrateBps none
  · rw [← LossEstimator.controlled_decrease]
    apply LossEstimator.controlled.decreasesPaced
    · intro l i
      cases i <;> rfl
    · exact clampBitrate_bounded initialBitrateBps none

end SfuKit
