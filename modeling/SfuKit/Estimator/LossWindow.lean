import SfuKit.Estimator.RateController
import SfuKit.Library.Trend

/-! # The window of the loss estimator

The estimator keeps the outcomes of the last packets and judges the link by the share of losses
among them. Rate control reads the window and leaves it alone.
-/
namespace SfuKit

open Library Run Trend

def LossCall.outcome : LossCall → Option Bool
  | record received => some received
  | applyRateControl _ => none

namespace LossEstimator

/-- The share of losses in some outcomes, none of none. -/
def lossShare (outcomes : List Bool) : ℚ :=
  if outcomes = [] then 0 else (outcomes.count false : ℚ) / outcomes.length

theorem lossShare_mem (outcomes : List Bool) :
    0 ≤ lossShare outcomes ∧ lossShare outcomes ≤ 1 := by
  unfold lossShare
  split_ifs with h
  · exact ⟨le_rfl, zero_le_one⟩
  · have hcount : (outcomes.count false : ℚ) ≤ outcomes.length := by
      exact_mod_cast List.count_le_length
    constructor
    · positivity
    · exact div_le_one_of_le₀ hcount (Nat.cast_nonneg _)

theorem lossFraction_eq (e : LossEstimator) : e.lossFraction = lossShare e.window := by
  have hlost : (fun r => !r) = fun r : Bool => r == false := by
    funext r
    cases r <;> rfl
  rw [lossFraction, lossShare, List.count, hlost]

theorem window_applyRateControl (e : LossEstimator) (now : Instant) :
    (e.applyRateControl now).window = e.window := by
  unfold applyRateControl
  split_ifs <;> rfl

theorem window_call (e : LossEstimator) (i : LossCall) :
    (e.call i).window = run (push lossWindow) e.window i.outcome.toList := by
  cases i with
  | record received => rfl
  | applyRateControl now => exact e.window_applyRateControl now

/-- Over any calls the window holds the outcomes recorded last. -/
theorem window_run (initialBitrateBps : ℚ) (l : List LossCall) :
    (run call (new initialBitrateBps) l).window =
      (l.filterMap LossCall.outcome).rtake lossWindow := by
  have hinv : ∀ (e : LossEstimator) (i : LossCall), True → True := fun _ _ h => h
  have hstep : ∀ (e : LossEstimator) (i : LossCall), True →
      (e.call i).window = run (push lossWindow) e.window i.outcome.toList :=
    fun e i _ => e.window_call i
  rw [view_run hinv hstep trivial l, ← List.filterMap_eq_flatMap_toList]
  exact foldl_push _ (by decide)

/-- Over any calls the window holds exactly the last 64 outcomes, in order, or all while there are
fewer. The loss fraction is the share of losses among them, between zero and one, and the same
after any other calls with the same last outcomes. -/
theorem loss_window_run (initialBitrateBps : ℚ) (l : List LossCall) :
    let e := run call (new initialBitrateBps) l
    let records := l.filterMap LossCall.outcome
    let n := min records.length 64
    e.window = records.rtake n ∧ e.window.length = n ∧
    e.lossFraction = (if n = 0 then 0 else ((records.rtake n).count false : ℚ) / n) ∧
    0 ≤ e.lossFraction ∧ e.lossFraction ≤ 1 ∧
    ∀ (initialBitrateBps' : ℚ) (l' : List LossCall),
      (l'.filterMap LossCall.outcome).rtake 64 = records.rtake 64 →
      (run call (new initialBitrateBps') l').lossFraction = e.lossFraction := by
  intro e records n
  have hrun : e.window = records.rtake lossWindow := window_run initialBitrateBps l
  have hwindow : e.window = records.rtake n := hrun.trans (rtake_min records 64)
  have hlen : e.window.length = n := by
    rw [hwindow, List.rtake, List.length_drop]
    omega
  have hshare := lossShare_mem e.window
  rw [← lossFraction_eq] at hshare
  refine ⟨hwindow, hlen, ?_, hshare.1, hshare.2, ?_⟩
  · rw [lossFraction_eq, lossShare, hlen, ← hwindow]
    congr 1
    rw [← hlen, List.length_eq_zero_iff]
  · intro initialBitrateBps' l' hlast
    rw [lossFraction_eq, lossFraction_eq, window_run, hrun]
    exact congrArg lossShare hlast

end LossEstimator
end SfuKit
