import SfuKit.Library.Run
import SfuKit.Library.Streak

/-! # Drops under a cooldown

The steps of a system may drop a level by a factor, but only when a cooldown has passed since
the last drop. However many steps it takes, a span of time then has room for few drops, and
the level cannot collapse within it.
-/
namespace SfuKit.Library.Cooldown

open Run Streak

variable {σ ι K : Type*} [Field K] [LinearOrder K]

/-- A system that paces its drops. `drop s i` is the time at which step `i` drops the level of
the state `s`, if it does, and `last s` is the time of the last drop. -/
structure Paced (step : σ → ι → σ) (cooldown : ℕ) (factor : K) where
  Valid : σ → Prop
  level : σ → K
  last : σ → Option ℕ
  drop : σ → ι → Option ℕ
  cooldown_pos : 0 < cooldown
  factor_nonneg : 0 ≤ factor
  factor_le_one : factor ≤ 1
  valid_step : ∀ s i, Valid s → Valid (step s i)
  level_nonneg : ∀ s, Valid s → 0 ≤ level s
  last_step : ∀ s i, last (step s i) = (drop s i).or (last s)
  cooled : ∀ s i, ∀ t ∈ drop s i, ∀ t₀ ∈ last s, t₀ + cooldown ≤ t
  level_kept : ∀ s i, Valid s → drop s i = none → level s ≤ level (step s i)
  level_dropped : ∀ s i, Valid s → (drop s i).isSome → level s * factor ≤ level (step s i)

namespace Paced
variable {step : σ → ι → σ} {cooldown : ℕ} {factor : K} (P : Paced step cooldown factor)

def drops (s : σ) (l : List ι) : List ℕ := outputs step P.drop s l

/-- Neighbouring drops are a cooldown apart, the last one before the run included. -/
theorem drops_isChain (s : σ) (l : List ι) :
    ((P.last s).toList ++ P.drops s l).IsChain fun a b => a + cooldown ≤ b := by
  induction l generalizing s with
  | nil =>
    cases P.last s with
    | none => exact List.isChain_nil
    | some t => exact List.isChain_singleton t
  | cons i l ih =>
    have hrest := ih (step s i)
    rw [P.last_step] at hrest
    unfold drops outputs
    cases hd : P.drop s i with
    | none =>
      rw [hd, Option.none_or] at hrest
      exact hrest
    | some t =>
      rw [hd, Option.some_or] at hrest
      cases hl : P.last s with
      | none => exact hrest
      | some t₀ => exact List.isChain_cons_cons.mpr ⟨P.cooled s i t hd t₀ hl, hrest⟩

theorem drops_pairwise (s : σ) (l : List ι) :
    (P.drops s l).Pairwise fun a b => a + cooldown ≤ b := by
  have : Trans (fun a b : ℕ => a + cooldown ≤ b) (fun a b => a + cooldown ≤ b)
      (fun a b => a + cooldown ≤ b) := ⟨fun hab hbc => by omega⟩
  exact (P.drops_isChain s l).right_of_append.pairwise

/-- A span of time has room for one drop, and one more for every cooldown in it. -/
theorem length_drops_le {s : σ} {l : List ι} {start span : ℕ}
    (h : ∀ t ∈ P.drops s l, start ≤ t ∧ t ≤ start + span) :
    (P.drops s l).length ≤ 1 + span / cooldown := by
  have hchain := (P.drops_isChain s l).right_of_append
  generalize P.drops s l = times at h hchain
  cases times with
  | nil => exact Nat.zero_le _
  | cons t times =>
    obtain ⟨u, hu⟩ : ∃ u, (t :: times).getLast? = some u := by simp [List.getLast?_cons]
    have hspan := le_getLast_of_isChain (f := id) hchain t rfl u hu
    have ht := (h t List.mem_cons_self).1
    have hlast := (h u (List.mem_of_getLast? hu)).2
    have hmul : times.length * cooldown ≤ span := by
      simp only [id_eq, List.length_cons, Nat.add_sub_cancel] at hspan
      omega
    rw [List.length_cons, Nat.add_comm]
    exact Nat.add_le_add_left ((Nat.le_div_iff_mul_le P.cooldown_pos).mpr hmul) 1

theorem valid_run {s : σ} (hs : P.Valid s) (l : List ι) : P.Valid (run step s l) :=
  invariant_all P.valid_step l hs

variable [IsStrictOrderedRing K]

/-- A run lowers the level by at most one factor for each drop. -/
theorem level_run {s : σ} (hs : P.Valid s) (l : List ι) :
    P.level s * factor ^ (P.drops s l).length ≤ P.level (run step s l) := by
  induction l generalizing s with
  | nil => simp [drops, outputs]
  | cons i l ih =>
    have hrest := ih (P.valid_step s i hs)
    have hpow := pow_nonneg P.factor_nonneg (P.drops (step s i) l).length
    unfold drops outputs
    rw [run_cons]
    cases hd : P.drop s i with
    | none =>
      have hkept := P.level_kept s i hs hd
      exact (mul_le_mul_of_nonneg_right hkept hpow).trans hrest
    | some t =>
      have hdropped := P.level_dropped s i hs (by rw [hd]; rfl)
      have hstep := (mul_le_mul_of_nonneg_right hdropped hpow).trans hrest
      rw [mul_assoc, ← pow_succ'] at hstep
      exact hstep

/-- Within a span of time the level does not fall below this share of what it was. -/
theorem level_run_span {s : σ} (hs : P.Valid s) {l : List ι} {start span : ℕ}
    (h : ∀ t ∈ P.drops s l, start ≤ t ∧ t ≤ start + span) :
    P.level s * factor ^ (1 + span / cooldown) ≤ P.level (run step s l) := by
  have hpow : factor ^ (1 + span / cooldown) ≤ factor ^ (P.drops s l).length :=
    pow_le_pow_of_le_one P.factor_nonneg P.factor_le_one (P.length_drops_le h)
  have hlevel := mul_le_mul_of_nonneg_left hpow (P.level_nonneg s hs)
  exact hlevel.trans (P.level_run hs l)

end Paced
end SfuKit.Library.Cooldown
