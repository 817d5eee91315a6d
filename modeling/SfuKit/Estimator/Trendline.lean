import SfuKit.Library.Trend
import SfuKit.Estimator.Aimd

/-! # What the trendline detector measures

The detector gets the differences between neighbouring samples and fits a line to their
partial sums. Up to a constant these are the offsets between arrival and send time, so
it reports overuse exactly when the offsets of the last samples rise steeply.
-/
namespace SfuKit

open Library Trend

/-- How much later than its send time a sample arrived, on unrelated clocks. -/
def offset (x : ℚ × ℚ) : ℚ := x.1 - x.2

/-- The last offsets, the very first aside, have a least-squares slope above the overuse
threshold. -/
def Steep (l : List ℚ) : Prop :=
  3 ≤ (l.tail.rtake TrendlineDetector.window).length ∧
    TrendlineDetector.overuseThreshold < slope (l.tail.rtake TrendlineDetector.window)

instance (l : List ℚ) : Decidable (Steep l) := inferInstanceAs (Decidable (_ ∧ _))

theorem Steep.length_le {l : List ℚ} (h : Steep l) : 4 ≤ l.length := by
  have hlen := h.1
  unfold List.rtake at hlen
  rw [List.length_drop, List.length_tail] at hlen
  omega

namespace TrendlineDetector

@[simp] theorem length_accumulate (acc : ℚ) (l : List (ℚ × ℚ)) :
    (accumulate acc l).length = l.length := by
  induction l generalizing acc with
  | nil => rfl
  | cons x l ih => rw [accumulate, List.length_cons, ih, List.length_cons]

/-- The partial sums of the differences are offsets, counted from the first one. -/
theorem accumulate_diffs (acc : ℚ) (x : ℚ × ℚ) (l : List (ℚ × ℚ)) :
    accumulate acc (diffs (x :: l)) = (l.map offset).map (· + (acc - offset x)) := by
  induction l generalizing acc x with
  | nil => rfl
  | cons y l ih =>
    have hacc : acc + ((y - x).1 - (y - x).2) = offset y + (acc - offset x) := by
      simp only [offset, Prod.fst_sub, Prod.snd_sub]
      ring
    rw [diffs_cons_cons, accumulate, ih, hacc, List.map_cons, List.map_cons]
    congr 2
    ext z
    ring

def numerator (d : TrendlineDetector) : ℚ :=
  ((accumulate 0 d.deltas).zipIdx.map fun p => ((p.2 : ℚ) - ((d.deltas.length : ℚ) - 1) / 2) *
    (p.1 - (accumulate 0 d.deltas).sum / d.deltas.length)).sum

def denominator (d : TrendlineDetector) : ℚ :=
  ((accumulate 0 d.deltas).zipIdx.map fun p =>
    ((p.2 : ℚ) - ((d.deltas.length : ℚ) - 1) / 2) ^ 2).sum

theorem trendlineSlope_def (d : TrendlineDetector) : d.trendlineSlope =
    if |d.denominator| < 1 / 10000000000 then 0 else d.numerator / d.denominator := rfl

theorem one_le_denominator (d : TrendlineDetector) (h : 3 ≤ d.deltas.length) :
    1 ≤ d.denominator := by
  have hlen : ((accumulate 0 d.deltas).length : ℚ) = d.deltas.length := by
    rw [length_accumulate]
  have hthree : (3 : ℚ) ≤ d.deltas.length := by exact_mod_cast h
  have hvar := sum_sq_deviation_middle (accumulate 0 d.deltas)
  rw [middle, hlen] at hvar
  unfold denominator
  rw [hvar]
  nlinarith

/-- With three samples the guard against a vanishing variance never fires. -/
theorem trendlineSlope_eq_div (d : TrendlineDetector) (h : 3 ≤ d.deltas.length) :
    d.trendlineSlope = d.numerator / d.denominator := by
  have hone := d.one_le_denominator h
  rw [trendlineSlope_def]
  apply if_neg
  rw [not_lt]
  apply le_trans _ (le_abs_self _)
  linarith

theorem trendlineSlope_eq (d : TrendlineDetector) (h : 3 ≤ d.deltas.length) :
    d.trendlineSlope = slope (accumulate 0 d.deltas) := by
  have hlen : ((accumulate 0 d.deltas).length : ℚ) = d.deltas.length := by
    rw [length_accumulate]
  rw [trendlineSlope_eq_div d h,
    ← slope_eq_regression _ ((accumulate 0 d.deltas).sum / d.deltas.length), middle, hlen]
  rfl

theorem update_deltas (d : TrendlineDetector) (a s : ℚ) :
    (d.update a s).deltas =
      (if window ≤ d.deltas.length then d.deltas.tail else d.deltas) ++ [(a, s)] := by
  unfold update
  dsimp only
  split_ifs <;> rfl

/-- The verdict is taken anew from three samples on, and kept before. -/
theorem update_overuse (d : TrendlineDetector) (a s : ℚ) :
    (d.update a s).overuse =
      if (d.update a s).deltas.length < 3 then d.overuse
      else decide (overuseThreshold < (d.update a s).trendlineSlope) := by
  let pushed : TrendlineDetector :=
    { d with deltas := (if window ≤ d.deltas.length then d.deltas.tail else d.deltas) ++ [(a, s)] }
  let verdict : BandwidthState :=
    if overuseThreshold < pushed.trendlineSlope then .overuse
    else if pushed.trendlineSlope < -overuseThreshold then .underuse
    else .normal
  have hupdate : d.update a s =
      if pushed.deltas.length < 3 then pushed else { pushed with state := verdict } := rfl
  by_cases hshort : pushed.deltas.length < 3
  · rw [hupdate, if_pos hshort, if_pos hshort]
    rfl
  · have hslope : ({ pushed with state := verdict } : TrendlineDetector).trendlineSlope =
        pushed.trendlineSlope := rfl
    rw [hupdate, if_neg hshort, if_neg hshort, hslope]
    dsimp only [overuse, verdict]
    split_ifs with hover hunder <;> simp [hover]

end TrendlineDetector

namespace GoogCcEstimator

open TrendlineDetector

/-- The estimator after these samples, fed without loss. -/
def replay (l : List (ℚ × ℚ)) : GoogCcEstimator :=
  l.foldl (fun g x => (g.onReceive x.1 x.2 0).1) .new

@[simp] theorem replay_nil : replay [] = .new := rfl

@[simp] theorem replay_concat (l : List (ℚ × ℚ)) (x : ℚ × ℚ) :
    replay (l ++ [x]) = ((replay l).onReceive x.1 x.2 0).1 := by
  simp [replay]

theorem replay_bounded (l : List (ℚ × ℚ)) : (replay l).aimd.Bounded := by
  induction l using List.reverseRecOn with
  | nil => exact new_bounded
  | append_singleton l x ih =>
    rw [replay_concat]
    exact onReceive_bounded ih x.1 x.2 0

/-- The second of two neighbouring samples reaches the detector as their difference. -/
theorem trendline_replay_concat_concat (l : List (ℚ × ℚ)) (x y : ℚ × ℚ) :
    (replay (l ++ [x] ++ [y])).trendline =
      (replay (l ++ [x])).trendline.update (y.1 - x.1) (y.2 - x.2) := by
  rw [replay_concat (l ++ [x]) y, replay_concat l x]
  rfl

theorem deltas_replay (l : List (ℚ × ℚ)) :
    (replay l).trendline.deltas = (diffs l).rtake window := by
  induction l using List.reverseRecOn with
  | nil => rfl
  | append_singleton l y ih =>
    rcases List.eq_nil_or_concat l with rfl | ⟨l, x, rfl⟩
    · rfl
    · rw [List.concat_eq_append] at ih ⊢
      rw [trendline_replay_concat_concat, update_deltas, ih, diffs_concat_concat]
      exact rtake_push (diffs (l ++ [x])) (y - x) (by decide)

theorem length_deltas_replay (l : List (ℚ × ℚ)) :
    (replay l).trendline.deltas.length = ((l.map offset).tail.rtake window).length := by
  rw [deltas_replay]
  simp only [List.rtake, List.length_drop, List.length_tail, List.length_map, length_diffs]

/-- The slope the detector compares with its thresholds is that of the offsets. -/
theorem trendlineSlope_replay (l : List (ℚ × ℚ)) (h : 3 ≤ (replay l).trendline.deltas.length) :
    (replay l).trendline.trendlineSlope = slope ((l.map offset).tail.rtake window) := by
  rw [trendlineSlope_eq _ h, deltas_replay, rtake_diffs]
  have htail : (l.rtake (window + 1)).tail = l.tail.rtake window := by
    unfold List.rtake
    rw [List.tail_drop, List.length_tail, ← List.drop_one, List.drop_drop]
    congr 1
    omega
  have hmap : (l.map offset).tail.rtake window = (l.tail.rtake window).map offset := by
    unfold List.rtake
    rw [List.length_tail, List.length_tail, List.length_map, List.map_drop, List.map_tail]
  rw [hmap, ← htail]
  cases l.rtake (window + 1) with
  | nil => rfl
  | cons x rest => rw [accumulate_diffs, slope_map_add, List.tail_cons]

theorem overuse_replay (l : List (ℚ × ℚ)) :
    (replay l).trendline.overuse = true ↔ Steep (l.map offset) := by
  have hverdict : ∀ l : List (ℚ × ℚ), Steep (l.map offset) ↔
      3 ≤ (replay l).trendline.deltas.length ∧
        overuseThreshold < (replay l).trendline.trendlineSlope := by
    intro l
    rw [Steep, ← length_deltas_replay]
    exact and_congr_right fun h => by rw [trendlineSlope_replay l h]
  induction l using List.reverseRecOn with
  | nil => exact iff_of_false (by decide) fun h => absurd h.length_le (by decide)
  | append_singleton l y ih =>
    rcases List.eq_nil_or_concat l with rfl | ⟨l, x, rfl⟩
    · exact iff_of_false Bool.false_ne_true fun h => absurd h.length_le (by simp)
    · rw [List.concat_eq_append] at ih ⊢
      have hlen : (replay (l ++ [x])).trendline.deltas.length ≤
          (replay (l ++ [x] ++ [y])).trendline.deltas.length := by
        simp only [length_deltas_replay, List.rtake, List.length_drop, List.length_tail,
          List.length_map, List.length_append, List.length_singleton]
        omega
      rw [hverdict, trendline_replay_concat_concat, update_overuse]
      rw [← trendline_replay_concat_concat]
      split_ifs with hshort
      · -- Too few samples for a verdict, before and after.
        refine (ih.trans (hverdict _)).trans ?_
        constructor
        · rintro ⟨h, -⟩
          omega
        · rintro ⟨h, -⟩
          omega
      · rw [decide_eq_true_iff, and_iff_right (not_lt.mp hshort)]

end GoogCcEstimator
end SfuKit
