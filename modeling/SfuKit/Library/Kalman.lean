import Mathlib.Analysis.Convex.Hull
import SfuKit.Library.Run

/-! # The scalar Kalman filter

A hidden value that drifts is estimated from noisy measurements. An estimate is a mean and a
variance; a measurement moves the mean towards itself by a share, the gain, that the variance
decides. Every mean is then a weighted average of the first one and the measurements.
-/
namespace SfuKit.Library.Kalman

open Run

variable {K : Type*} [Field K] [LinearOrder K] [IsStrictOrderedRing K]

/-- How much the hidden value drifts between measurements, and how far these scatter. -/
structure Noise (K : Type*) [Field K] [LinearOrder K] where
  process : K
  measurement : K
  process_nonneg : 0 ≤ process
  measurement_pos : 0 < measurement

@[ext] structure Estimate (K : Type*) where
  mean : K
  var : K
deriving DecidableEq

variable (n : Noise K) (e : Estimate K)

/-- The share of a measurement in the next mean. -/
def gain : K := (e.var + n.process) / (e.var + n.process + n.measurement)

def update (z : K) : Estimate K where
  mean := e.mean + gain n e * (z - e.mean)
  var := (e.var + n.process) * (1 - gain n e)

variable {e}

theorem gain_pos (h : 0 < e.var) : 0 < gain n e := by
  have hq := n.process_nonneg
  have hr := n.measurement_pos
  unfold gain
  positivity

theorem gain_lt_one (h : 0 < e.var) : gain n e < 1 := by
  have hq := n.process_nonneg
  have hr := n.measurement_pos
  unfold gain
  rw [div_lt_one (by positivity)]
  exact lt_add_of_pos_right _ hr

theorem update_var_pos (h : 0 < e.var) (z : K) : 0 < (update n e z).var := by
  have hq := n.process_nonneg
  have hgain := sub_pos.mpr (gain_lt_one n h)
  unfold update
  positivity

/-- What the drift adds and the measurement leaves of the variance is a share of the
measurement noise. -/
theorem update_var (h : 0 < e.var) (z : K) :
    (update n e z).var = gain n e * n.measurement := by
  have hq := n.process_nonneg
  have hr := n.measurement_pos
  have hsum : e.var + n.process + n.measurement ≠ 0 := by positivity
  unfold update gain
  field_simp
  ring

/-- After a measurement the estimate is better than a measurement alone. -/
theorem update_var_lt (h : 0 < e.var) (z : K) : (update n e z).var < n.measurement := by
  rw [update_var n h]
  exact mul_lt_of_lt_one_left n.measurement_pos (gain_lt_one n h)

theorem update_mean_mem (h : 0 < e.var) (z : K) : (update n e z).mean ∈ segment K e.mean z := by
  rw [segment_eq_image']
  exact ⟨gain n e, ⟨(gain_pos n h).le, (gain_lt_one n h).le⟩, rfl⟩

/-- What a run of measurements keeps of an estimate whose first mean was `m`. -/
structure Sound (m : K) (seen : List K) (e : Estimate K) : Prop where
  var_pos : 0 < e.var
  var_lt : seen ≠ [] → e.var < n.measurement
  mean_mem : e.mean ∈ convexHull K (insert m {z | z ∈ seen})

variable {n} {m : K}

theorem Sound.update {seen : List K} (h : Sound n m seen e) (z : K) :
    Sound n m (seen ++ [z]) (update n e z) where
  var_pos := update_var_pos n h.var_pos z
  var_lt _ := update_var_lt n h.var_pos z
  mean_mem := by
    have hseen : insert m {x | x ∈ seen} ⊆ insert m {x | x ∈ seen ++ [z]} := by
      apply Set.insert_subset_insert
      intro x hx
      exact List.mem_append_left _ hx
    have hz : z ∈ convexHull K (insert m {x | x ∈ seen ++ [z]}) := by
      apply subset_convexHull
      exact .inr (List.mem_append_right _ (List.mem_singleton_self z))
    apply (convex_convexHull K _).segment_subset _ hz (update_mean_mem n h.var_pos z)
    exact convexHull_mono hseen h.mean_mem

/-- Any run of measurements keeps an estimate sound that is uncertain at first. -/
theorem sound_run (h : 0 < e.var) (seen : List K) :
    Sound n e.mean seen (run (Kalman.update n) e seen) := by
  have hstep : ∀ seen e' z, Sound n e.mean seen e' →
      Sound n e.mean (seen ++ [z]) (Kalman.update n e' z) := fun _ _ z hs => hs.update z
  have hstart : Sound n e.mean [] e := by
    refine ⟨h, fun hne => absurd rfl hne, ?_⟩
    apply subset_convexHull
    exact Set.mem_insert _ _
  exact history_invariant_all hstep hstart seen

/-- What bounds the first mean and every measurement bounds the mean. -/
theorem Sound.mean_le {seen : List K} (h : Sound n m seen e) {b : K} (hm : m ≤ b)
    (hseen : ∀ z ∈ seen, z ≤ b) : e.mean ≤ b := by
  have hsub : convexHull K (insert m {z | z ∈ seen}) ⊆ Set.Iic b := by
    apply convexHull_min _ (convex_Iic b)
    exact Set.insert_subset hm hseen
  exact hsub h.mean_mem

end SfuKit.Library.Kalman
