import SfuKit.Estimator.Aimd
import SfuKit.Estimator.Combiner
import SfuKit.Estimator.RateController
import SfuKit.Pacer.Advances

/-! # The range of the estimates

Whatever feedback the estimators take, the delay and the loss estimate stay between 30 kbps and
50 Mbps and GoogCC within its own bounds. So a pacer reads at most 50 Mbps, and less than 30 kbps
only if a native estimate or a fresh hint says exactly that.
-/
namespace SfuKit

open Library

namespace PerSubscriber

structure Enclosed (s : PerSubscriber) : Prop where
  delay : Rate.Bounded ⟨s.delay.bitrateBps, s.delay.lastDecrease⟩
  loss : Rate.Bounded ⟨s.loss.bitrateBps, s.loss.lastDecrease⟩
  googcc : ∀ g ∈ s.googcc, g.aimd.Bounded

theorem ingestSample_enclosed {s : PerSubscriber} (h : s.Enclosed) (sample : TwccSample) :
    (ingestSample s sample).Enclosed := by
  unfold ingestSample
  dsimp only
  split
  · exact ⟨h.delay, h.loss, h.googcc⟩
  · split
    · exact ⟨h.delay, h.loss, h.googcc⟩
    · refine ⟨?_, h.loss, h.googcc⟩
      dsimp only
      split <;> exact h.delay

theorem ingestTwcc_enclosed {s : PerSubscriber} (h : s.Enclosed) (feedback : TwccFeedback)
    (now : Instant) : (ingestTwcc s feedback now).Enclosed := by
  have hstep : ∀ (s : PerSubscriber) x, s.Enclosed → (ingestSample s x).Enclosed :=
    fun s x h => ingestSample_enclosed h x
  have hsamples : (Run.run ingestSample s feedback.samples).Enclosed :=
    Run.invariant_all hstep feedback.samples h
  constructor
  · exact DelayEstimator.controlled.bounded_step (i := .applyRateControl now) hsamples.delay
  · exact LossEstimator.controlled.bounded_step (i := .applyRateControl now) hsamples.loss
  · exact hsamples.googcc

theorem enclosed_invariant : EntryInvariant Enclosed where
  new := ⟨clampBitrate_bounded _ _, clampBitrate_bounded _ _, fun g hg => by cases hg⟩
  twcc _ feedback now h := ingestTwcc_enclosed h feedback now
  sendTime _ _ _ h := ⟨h.delay, h.loss, h.googcc⟩
  native _ _ h := ⟨h.delay, h.loss, h.googcc⟩
  hint _ _ h := ⟨h.delay, h.loss, h.googcc⟩
  enable s h := by
    refine ⟨h.delay, h.loss, ?_⟩
    intro g hg
    obtain rfl := Option.mem_some_iff.mp hg
    cases hs : s.googcc with
    | none => exact GoogCcEstimator.new_bounded
    | some g => exact h.googcc g hs
  receive s arrival send loss h := by
    refine ⟨h.delay, h.loss, ?_⟩
    intro g hg
    obtain ⟨g', hg', rfl⟩ := Option.map_eq_some_iff.mp hg
    exact GoogCcEstimator.onReceive_bounded (h.googcc g' hg') arrival send loss

/-- A native estimate, or a hint that is younger than `CLIENT_HINT_MAX_AGE`, says this bitrate. -/
def Says (s : PerSubscriber) (now : Instant) (bps : ℕ) : Prop :=
  (∃ v, s.nativeEstimateBps = some (.num v) ∧ bps = asU64 (max 0 v)) ∨
    ∃ hint, s.clientHint = some hint ∧ durationSince now hint.receivedAt < clientHintMaxAge ∧
      hint.bps = bps

variable {s : PerSubscriber}

theorem combinedBps_le (h : s.Enclosed) (now : Instant) :
    asU64 (s.combinedBps now) ≤ 50000000 := by
  obtain ⟨m, hmin, hvalue⟩ := s.combinedBpsWithTerm_cases now
  have hm : m ≤ maxBitrateBps := (hmin.le _ (s.mem_ceilings_delay now)).trans h.delay.le_max
  have hle : s.combinedBps now ≤ 50000000 := by
    rw [combinedBps, hvalue]
    exact max_le (by norm_num) hm
  have hfloor : ⌊s.combinedBps now⌋ ≤ 50000000 := by
    have hmono := Int.floor_le_floor hle
    have hceil : ⌊(50000000 : ℚ)⌋ = 50000000 := by
      rw [Int.floor_eq_iff]
      norm_num
    rwa [hceil] at hmono
  have hround : asU64 (s.combinedBps now) ≤ ⌊s.combinedBps now⌋.toNat := min_le_left _ _
  omega

theorem le_asU64 {t : ℕ} (ht : t ≤ u64Max) {m : ℚ} (hm : (t : ℚ) ≤ m) : t ≤ asU64 (max 0 m) := by
  have hint : (t : ℤ) ≤ ⌊max 0 m⌋ := Int.le_floor.mpr (by exact_mod_cast le_max_of_le_right hm)
  exact le_min (by omega) ht

/-- A combination below the floor is what an explicit ceiling says. -/
theorem says_of_lt (h : s.Enclosed) {now : Instant} (hlow : asU64 (s.combinedBps now) < 30000) :
    s.Says now (asU64 (s.combinedBps now)) := by
  obtain ⟨m, hmin, hvalue⟩ := s.combinedBpsWithTerm_cases now
  have hcombined : s.combinedBps now = max 0 m := hvalue
  rw [hcombined] at hlow ⊢
  have hfloor : ∀ b : ℚ, (30000 : ℚ) ≤ b → m ≠ b := by
    rintro b hb rfl
    exact absurd hlow (not_lt.mpr (le_asU64 (by decide) (by exact_mod_cast hb)))
  have hmem := hmin.mem
  simp only [ceilings, ceilingsWith, numbers, List.mem_append, Option.mem_toList,
    numberOf_eq_some_iff] at hmem
  rcases hmem with (((⟨-, hd⟩ | ⟨-, hl⟩) | ⟨-, hn⟩) | ⟨-, hg⟩) | ⟨-, hh⟩
  · exact absurd (F64.num.inj (Option.some.inj hd)).symm (hfloor _ h.delay.min_le)
  · exact absurd (F64.num.inj (Option.some.inj hl)).symm (hfloor _ h.loss.min_le)
  · exact .inl ⟨m, hn, rfl⟩
  · obtain ⟨g, hgoogcc, hgm⟩ := Option.map_eq_some_iff.mp hg
    have hbound : (30000 : ℚ) ≤ (g.currentBps : ℚ) := by
      have hmin := (h.googcc g hgoogcc).min_le
      have hcast : 30000 ≤ g.currentBps := le_trans (by decide) hmin
      exact_mod_cast hcast
    exact absurd (F64.num.inj hgm).symm (hfloor _ hbound)
  · obtain ⟨b, hb, hbm⟩ := Option.map_eq_some_iff.mp hh
    obtain rfl := F64.num.inj hbm
    obtain ⟨hint, hhint, rfl, hage⟩ := (s.freshHint_eq_some_iff now b).mp hb
    refine .inr ⟨hint, hhint, hage, ?_⟩
    have hnat : max 0 (hint.bps : ℚ) = (hint.bps : ℚ) := max_eq_right (Nat.cast_nonneg _)
    rw [hnat, asU64, Int.floor_natCast, Int.toNat_natCast] at hlow ⊢
    have hmax : 30000 ≤ u64Max := by decide
    omega

end PerSubscriber

def Advance.InRange (a : Advance) : Prop :=
  ∀ s ∈ a.signals, a.bps ≤ 50000000 ∧ (a.bps < 30000 → s.Says a.now a.bps)

/-- Only the estimates matter, nothing of the clients. -/
theorem inRange_invariant (F : Features) : PacerInvariant F (fun _ _ _ => True)
    PerSubscriber.Enclosed (fun _ _ => True)
    (fun h => ∀ id, ∀ a ∈ advances id h, a.InRange) where
  entry := PerSubscriber.enclosed_invariant
  new _ _ _ := trivial
  frame _ _ _ := trivial
  advance _ _ _ _ _ _ _ := trivial
  log_nil := by
    intro id a ha
    cases ha
  log_advance c now bps signals h hr _ hG := by
    intro id a ha
    rw [advances_concat] at ha
    rcases List.mem_append.mp ha with ha | ha
    · exact hG id a ha
    · by_cases hid : c.id = id
      · rw [← hid, advanceOf_self, Option.toList_some, List.mem_singleton] at ha
        rw [ha]
        intro s hs
        cases hs
        obtain ⟨-, hs, rfl⟩ := hr
        exact ⟨PerSubscriber.combinedBps_le hs now, PerSubscriber.says_of_lt hs⟩
      · rw [advanceOf_ne hid] at ha
        cases ha
  log_delivery c heap origin data h _ _ hG := by
    intro id a ha
    rw [advances_concat] at ha
    exact hG id a (by simpa [Obs.advanceOf] using ha)
  log_sample id arrival send h hG := by
    intro id' a ha
    rw [advances_concat] at ha
    exact hG id' a (by simpa [Obs.advanceOf] using ha)

end SfuKit
