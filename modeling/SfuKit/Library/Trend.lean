import Mathlib.Tactic
import Mathlib.Data.List.DropRight

/-! # Trends in a sliding window

The window of the last entries of a list, the differences between neighbours, and the
slope of the line that fits the entries best. The slope stays when all entries move by
the same amount, so a window of values and the partial sums of its differences have
the same trend.
-/
namespace SfuKit.Library.Trend

section Window
variable {G : Type*}

/-- A queue of `n` entries, which drops its oldest one to make room. -/
def push (n : ℕ) (queue : List G) (x : G) : List G :=
  (if n ≤ queue.length then queue.tail else queue) ++ [x]

theorem rtake_push (l : List G) (x : G) {n : ℕ} (hn : 0 < n) :
    push n (l.rtake n) x = (l ++ [x]).rtake n := by
  obtain ⟨m, rfl⟩ := Nat.exists_eq_succ_of_ne_zero hn.ne'
  rw [push, List.rtake_concat_succ]
  congr 1
  unfold List.rtake
  rw [List.length_drop]
  split_ifs with h
  · rw [List.tail_drop]
    congr 1
    omega
  · rw [Nat.sub_eq_zero_of_le (by omega), Nat.sub_eq_zero_of_le (by omega)]

/-- A queue that started empty holds the last entries. -/
theorem foldl_push (l : List G) {n : ℕ} (hn : 0 < n) : l.foldl (push n) [] = l.rtake n := by
  induction l using List.reverseRecOn with
  | nil => simp [List.rtake]
  | append_singleton l x ih => rw [List.foldl_concat, ih, rtake_push l x hn]

theorem rtake_min (l : List G) (n : ℕ) : l.rtake n = l.rtake (min l.length n) := by
  unfold List.rtake
  congr 1
  omega

variable [Sub G]

def diffs : List G → List G
  | x :: y :: l => (y - x) :: diffs (y :: l)
  | _ => []

@[simp] theorem diffs_cons_cons (x y : G) (l : List G) :
    diffs (x :: y :: l) = (y - x) :: diffs (y :: l) := rfl

theorem diffs_concat_concat (l : List G) (x y : G) :
    diffs (l ++ [x] ++ [y]) = diffs (l ++ [x]) ++ [y - x] := by
  induction l with
  | nil => rfl
  | cons z l ih =>
    cases l with
    | nil => rfl
    | cons w l => simpa using ih

theorem diffs_tail (l : List G) : diffs l.tail = (diffs l).tail := by
  rcases l with - | ⟨x, - | ⟨y, l⟩⟩ <;> rfl

theorem diffs_drop (l : List G) (k : ℕ) : diffs (l.drop k) = (diffs l).drop k := by
  induction k with
  | zero => rfl
  | succ k ih => rw [← List.tail_drop, ← List.tail_drop, diffs_tail, ih]

@[simp] theorem length_diffs (l : List G) : (diffs l).length = l.length - 1 := by
  induction l with
  | nil => rfl
  | cons x l ih =>
    cases l with
    | nil => rfl
    | cons y l =>
      rw [diffs_cons_cons, List.length_cons, ih]
      rfl

/-- A window of differences is made of the differences in a window. -/
theorem rtake_diffs (l : List G) (n : ℕ) : (diffs l).rtake n = diffs (l.rtake (n + 1)) := by
  unfold List.rtake
  rw [diffs_drop, length_diffs]
  congr 1
  omega

end Window

variable {K : Type*} [Field K]

/-- The sum of the entries, each weighted with the distance of its position from `c`. -/
def moment (c : K) (l : List K) : K := (l.zipIdx.map fun p => ((p.2 : K) - c) * p.1).sum

def middle (l : List K) : K := ((l.length : K) - 1) / 2

/-- The slope of the least-squares line through the entries. -/
def slope (l : List K) : K := 12 * moment (middle l) l / (l.length * ((l.length : K) ^ 2 - 1))

theorem sum_zipIdx_concat (f : K × ℕ → K) (l : List K) (x : K) :
    ((l ++ [x]).zipIdx.map f).sum = (l.zipIdx.map f).sum + f (x, l.length) := by
  simp [List.zipIdx_append]

/-- Deviations of the entries count like the entries. -/
theorem sum_mul_sub (c m : K) (l : List K) :
    (l.zipIdx.map fun p => ((p.2 : K) - c) * (p.1 - m)).sum =
      moment c l - m * (l.zipIdx.map fun p => (p.2 : K) - c).sum := by
  unfold moment
  induction l using List.reverseRecOn with
  | nil => simp
  | append_singleton l x ih =>
    rw [sum_zipIdx_concat, sum_zipIdx_concat, sum_zipIdx_concat, ih]
    ring

variable [CharZero K]

theorem sum_deviation (c : K) (l : List K) :
    (l.zipIdx.map fun p => (p.2 : K) - c).sum = l.length * (l.length - 1) / 2 - l.length * c := by
  induction l using List.reverseRecOn with
  | nil => simp
  | append_singleton l x ih =>
    rw [sum_zipIdx_concat, ih, List.length_append, List.length_singleton]
    push_cast
    ring

theorem sum_sq_deviation (c : K) (l : List K) :
    (l.zipIdx.map fun p => ((p.2 : K) - c) ^ 2).sum =
      l.length * (l.length - 1) * (2 * l.length - 1) / 6 - c * (l.length * (l.length - 1)) +
        l.length * c ^ 2 := by
  induction l using List.reverseRecOn with
  | nil => simp
  | append_singleton l x ih =>
    rw [sum_zipIdx_concat, ih, List.length_append, List.length_singleton]
    push_cast
    ring

theorem sum_deviation_middle (l : List K) :
    (l.zipIdx.map fun p => (p.2 : K) - middle l).sum = 0 := by
  rw [sum_deviation, middle]
  ring

theorem sum_sq_deviation_middle (l : List K) :
    (l.zipIdx.map fun p => ((p.2 : K) - middle l) ^ 2).sum =
      l.length * ((l.length : K) ^ 2 - 1) / 12 := by
  rw [sum_sq_deviation, middle]
  ring

/-- The usual quotient of covariance and variance. -/
theorem slope_eq_regression (l : List K) (m : K) :
    (l.zipIdx.map fun p => ((p.2 : K) - middle l) * (p.1 - m)).sum /
      (l.zipIdx.map fun p => ((p.2 : K) - middle l) ^ 2).sum = slope l := by
  rw [sum_mul_sub, sum_deviation_middle, sum_sq_deviation_middle, slope, mul_zero, sub_zero,
    div_div_eq_mul_div, mul_comm]

theorem slope_map_add (l : List K) (d : K) : slope (l.map (· + d)) = slope l := by
  have hmiddle : middle (l.map (· + d)) = middle l := by
    rw [middle, middle, List.length_map]
  have hmoment : moment (middle l) (l.map (· + d)) = moment (middle l) l := by
    have h := sum_mul_sub (middle l) (-d) l
    rw [sum_deviation_middle, mul_zero, sub_zero] at h
    rw [← h, moment, List.zipIdx_map, List.map_map]
    simp [Function.comp_def]
  rw [slope, slope, hmiddle, hmoment, List.length_map]

/-- The squared distances of the entries from a line, added up. -/
def sqError (c k : K) (l : List K) : K := (l.zipIdx.map fun p => (p.1 - (c + k * p.2)) ^ 2).sum

/-- The error in terms of moments about a position `m`, where the line has the height
`c + k * m`. -/
theorem sqError_eq_moments (m c k : K) (l : List K) :
    sqError c k l = (l.map (· ^ 2)).sum - 2 * (c + k * m) * l.sum + l.length * (c + k * m) ^ 2
      - 2 * k * moment m l + k ^ 2 * (l.zipIdx.map fun p => ((p.2 : K) - m) ^ 2).sum
      + 2 * (c + k * m) * k * (l.zipIdx.map fun p => (p.2 : K) - m).sum := by
  unfold sqError moment
  induction l using List.reverseRecOn with
  | nil => simp
  | append_singleton l x ih =>
    simp only [sum_zipIdx_concat, ih, List.map_append, List.sum_append, List.map_cons, List.map_nil,
      List.sum_singleton, List.length_append, List.length_singleton]
    push_cast
    ring

variable [LinearOrder K] [IsStrictOrderedRing K]

/-- `k` is the slope of a line that no other line fits better. -/
def LeastSquares (l : List K) (k : K) : Prop := ∃ c, ∀ c' k', sqError c k l ≤ sqError c' k' l

theorem spread_pos {l : List K} (h : 2 ≤ l.length) : 0 < l.length * ((l.length : K) ^ 2 - 1) / 12 := by
  have hcast : (2 : K) ≤ l.length := by exact_mod_cast h
  have hsq : 0 < (l.length : K) ^ 2 - 1 := by nlinarith
  positivity

/-- The error grows with the distance of the line from the one through the mean with the
regression slope. -/
theorem sqError_eq_add {l : List K} (h : 2 ≤ l.length) (c k : K) :
    sqError c k l = sqError (l.sum / l.length - slope l * middle l) (slope l) l
      + l.length * (c + k * middle l - l.sum / l.length) ^ 2
      + l.length * ((l.length : K) ^ 2 - 1) / 12 * (k - slope l) ^ 2 := by
  have hspread := (spread_pos h).ne'
  have hlen : (l.length : K) ≠ 0 := by
    have : l.length ≠ 0 := by omega
    exact_mod_cast this
  have hmoment : moment (middle l) l = l.length * ((l.length : K) ^ 2 - 1) / 12 * slope l := by
    have hne : (l.length : K) ^ 2 - 1 ≠ 0 := by
      intro h0
      rw [h0, mul_zero, zero_div] at hspread
      exact hspread rfl
    unfold slope
    field_simp
  rw [sqError_eq_moments (middle l), sqError_eq_moments (middle l), sum_deviation_middle,
    sum_sq_deviation_middle, hmoment]
  field_simp
  ring

/-- Two entries or more have one least-squares slope. -/
theorem leastSquares_iff {l : List K} (h : 2 ≤ l.length) {k : K} :
    LeastSquares l k ↔ k = slope l := by
  have hspread := spread_pos h
  have hlen : (0 : K) ≤ l.length := Nat.cast_nonneg _
  constructor
  · rintro ⟨c, hc⟩
    have hle := hc (l.sum / l.length - slope l * middle l) (slope l)
    rw [sqError_eq_add h c k] at hle
    have hmean := mul_nonneg hlen (sq_nonneg (c + k * middle l - l.sum / l.length))
    have hsq : (k - slope l) ^ 2 ≤ 0 := by
      by_contra hpos
      have := mul_pos hspread (not_le.mp hpos)
      linarith
    exact sub_eq_zero.mp (pow_eq_zero_iff two_ne_zero |>.mp (le_antisymm hsq (sq_nonneg _)))
  · rintro rfl
    refine ⟨l.sum / l.length - slope l * middle l, fun c' k' => ?_⟩
    rw [sqError_eq_add h c' k']
    have hmean := mul_nonneg hlen (sq_nonneg (c' + k' * middle l - l.sum / l.length))
    have hslope := mul_nonneg hspread.le (sq_nonneg (k' - slope l))
    linarith

end SfuKit.Library.Trend
