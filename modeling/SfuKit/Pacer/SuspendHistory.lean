import SfuKit.Library.Streak
import SfuKit.Pacer.Representation

/-! # Suspension as a function of the readings

The suspended flag is a latch: a streak of readings below `suspend_video_bps` sets it, one
reading from `audio_only_bps` on clears it. While it is not set, the suspend streak is the
number of the last readings below `suspend_video_bps`.
-/
namespace SfuKit.SubscriberPacer

open Library Streak

def lowReadings (config : PacerConfig) (readings : List ℕ) : ℕ :=
  trailing (· < config.suspendVideoBps) readings

theorem lowReadings_low {config : PacerConfig} {bps : ℕ} (h : bps < config.suspendVideoBps)
    (readings : List ℕ) :
    lowReadings config (readings ++ [bps]) = lowReadings config readings + 1 := by
  rw [lowReadings, trailing_concat, if_pos h]
  rfl

theorem lowReadings_calm {config : PacerConfig} {bps : ℕ} (h : config.suspendVideoBps ≤ bps)
    (readings : List ℕ) : lowReadings config (readings ++ [bps]) = 0 := by
  rw [lowReadings, trailing_concat, if_neg (not_lt.mpr h)]

/-- A suspension that the readings explain. -/
def SuspendedBy (config : PacerConfig) (readings : List ℕ) : Prop :=
  Latched (· < config.suspendVideoBps) (· < config.audioOnlyBps) config.suspendStreak.toNat readings

theorem suspendedBy_concat (config : PacerConfig) (readings : List ℕ) (bps : ℕ) :
    SuspendedBy config (readings ++ [bps]) ↔
      config.suspendStreak.toNat ≤ lowReadings config (readings ++ [bps]) ∨
        (SuspendedBy config readings ∧ bps < config.audioOnlyBps) :=
  latched_concat _ _ _ _ _

/-- Flag and streak are what the readings say. -/
structure FollowsHistory (config : PacerConfig) (readings : List ℕ) (p : SubscriberPacer) :
    Prop where
  config_eq : p.config = config
  streak : p.suspended = false → p.suspendStreak.toNat = lowReadings config readings
  suspended_iff : p.suspended = true ↔ SuspendedBy config readings

variable {config : PacerConfig} {readings : List ℕ} {p q : SubscriberPacer} {bps : ℕ}
  {action : PacerAction}

theorem followsHistory_fresh (hc : config.Valid) : FollowsHistory config [] (fresh config) where
  config_eq := rfl
  streak _ := rfl
  suspended_iff := by
    constructor
    · intro h
      cases h
    · intro h
      exact absurd h (latched_nil _ (hc.suspendStreak_pos))

namespace FollowsHistory

theorem calm (hc : config.Valid) (h : FollowsHistory config readings p) (hs : p.suspended = false)
    (hv : p.config.suspendVideoBps ≤ bps) (hconf : q.config = p.config) (hq : q.suspended = false)
    (hz : q.suspendStreak = 0) : FollowsHistory config (readings ++ [bps]) q := by
  rw [h.config_eq] at hv
  have hnone : ¬ SuspendedBy config readings := by
    rw [← h.suspended_iff, hs]
    exact Bool.false_ne_true
  refine ⟨hconf.trans h.config_eq, fun _ => ?_, ?_⟩
  · rw [hz, lowReadings_calm hv]
    rfl
  · rw [suspendedBy_concat, lowReadings_calm hv, hq]
    have hk := hc.suspendStreak_pos
    constructor
    · intro hf
      cases hf
    · rintro (hle | ⟨hby, -⟩)
      · omega
      · exact absurd hby hnone

theorem react (hc : config.Valid) (h : FollowsHistory config readings p)
    (hr : Reacts p bps q action) : FollowsHistory config (readings ++ [bps]) q := by
  have hconf := h.config_eq
  cases hr with
  | restoreAudio hs hb =>
    rw [hconf] at hb
    have hcalm := lowReadings_calm (hc.suspend_le.trans hb) readings
    refine ⟨hconf, fun _ => hcalm.symm, ?_⟩
    rw [suspendedBy_concat, hcalm]
    have hk := hc.suspendStreak_pos
    constructor
    · intro hf
      cases hf
    · rintro (hle | ⟨-, hlt⟩)
      · omega
      · omega
  | staySuspended hs hb =>
    rw [hconf] at hb
    refine ⟨hconf, fun hf => ?_, ?_⟩
    · rw [hs] at hf
      cases hf
    · rw [suspendedBy_concat]
      exact ⟨fun _ => .inr ⟨h.suspended_iff.mp hs, hb⟩, fun _ => hs⟩
  | suspendVideo hs hv hk =>
    rw [hconf] at hv hk
    rw [h.streak hs] at hk
    refine ⟨hconf, fun hf => ?_, ?_⟩
    · cases hf
    · rw [suspendedBy_concat, lowReadings_low hv]
      exact ⟨fun _ => .inl hk, fun _ => rfl⟩
  | debounce s hs hv hk hn =>
    rw [hconf] at hv hk
    rw [h.streak hs] at hk hn
    refine ⟨hconf, fun _ => ?_, ?_⟩
    · rw [lowReadings_low hv]
      exact hn
    · rw [suspendedBy_concat, lowReadings_low hv, ← h.suspended_iff]
      constructor
      · intro hf
        exact absurd (hf.symm.trans hs) Bool.true_eq_false_eq_False
      · rintro (hle | ⟨hf, -⟩)
        · omega
        · exact hf
  | restoreVideo hs hv => exact h.calm hc hs hv rfl hs rfl
  | stayAudioOnly hs hv => exact h.calm hc hs hv rfl hs rfl
  | goAudioOnly hs hv => exact h.calm hc hs hv rfl hs rfl
  | downgrade hs hv => exact h.calm hc hs hv rfl hs rfl
  | upgrade hs hv => exact h.calm hc hs hv rfl hs rfl
  | countUp s hs hv => exact h.calm hc hs hv rfl hs rfl
  | keepLayer hs hv => exact h.calm hc hs hv rfl hs rfl

/-- `SuspendVideo` is the answer to the reading that completes a streak of low ones. -/
theorem suspendVideo_iff (hc : config.Valid) (h : FollowsHistory config readings p)
    (hr : Reacts p bps q action) :
    action = .suspendVideo ↔ p.suspended = false ∧
      config.suspendStreak.toNat ≤ lowReadings config (readings ++ [bps]) := by
  have hconf := h.config_eq
  have hk := hc.suspendStreak_pos
  have hcalm : p.config.suspendVideoBps ≤ bps →
      ¬ config.suspendStreak.toNat ≤ lowReadings config (readings ++ [bps]) := by
    intro hv
    rw [hconf] at hv
    rw [lowReadings_calm hv]
    omega
  cases hr with
  | suspendVideo hs hv hn =>
    rw [hconf] at hv hn
    rw [lowReadings_low hv, ← h.streak hs]
    exact ⟨fun _ => ⟨hs, hn⟩, fun _ => rfl⟩
  | debounce s hs hv hn =>
    rw [hconf] at hv hn
    rw [lowReadings_low hv, ← h.streak hs]
    simp [hn]
  | restoreAudio hs => simp [hs]
  | staySuspended hs => simp [hs]
  | restoreVideo hs hv => simp [hcalm hv]
  | stayAudioOnly hs hv => simp [hcalm hv]
  | goAudioOnly hs hv => simp [hcalm hv]
  | downgrade hs hv => simp [hcalm hv]
  | upgrade hs hv => simp [hcalm hv]
  | countUp s hs hv => simp [hcalm hv]
  | keepLayer hs hv => simp [hcalm hv]

end FollowsHistory

theorem followsHistory_run (hc : config.Valid) (readings : List ℕ) :
    FollowsHistory config readings (Run.run feed (fresh config) readings) := by
  have hstep : ∀ l p bps, FollowsHistory config l p →
      FollowsHistory config (l ++ [bps]) (feed p bps) := fun _ p bps h => h.react hc (feed_reacts p bps)
  exact Run.history_invariant_all hstep (followsHistory_fresh hc) readings

theorem le_lowReadings_iff (config : PacerConfig) (readings : List ℕ) (k : ℕ) :
    k ≤ lowReadings config readings ↔ k ≤ readings.length ∧
      ∀ r ∈ readings.drop (readings.length - k), r < config.suspendVideoBps :=
  le_trailing_iff _ _ _

theorem suspendedBy_iff (config : PacerConfig) (readings : List ℕ) :
    SuspendedBy config readings ↔ ∃ j ≤ readings.length, config.suspendStreak.toNat ≤ j ∧
      (∀ r ∈ (readings.take j).drop (j - config.suspendStreak.toNat), r < config.suspendVideoBps) ∧
        ∀ r ∈ readings.drop j, r < config.audioOnlyBps := by
  unfold SuspendedBy Latched
  constructor
  · rintro ⟨j, hj, htrail, hrest⟩
    rw [le_trailing_iff, List.length_take_of_le hj] at htrail
    exact ⟨j, hj, htrail.1, htrail.2, hrest⟩
  · rintro ⟨j, hj, hk, hlow, hrest⟩
    refine ⟨j, hj, ?_, hrest⟩
    rw [le_trailing_iff, List.length_take_of_le hj]
    exact ⟨hk, hlow⟩

/-- A pacer is suspended exactly when some `suspend_streak` readings in a row were below
`suspend_video_bps` and every reading since them was below `audio_only_bps`; it answers
`SuspendVideo` exactly when it was not suspended and the last `suspend_streak` readings, the
current one included, are all below `suspend_video_bps`. -/
theorem suspension_history (config : PacerConfig) (p₀ : SubscriberPacer)
    (h : tryWithConfig config = .ok p₀) (readings : List ℕ) :
    let k := config.suspendStreak.toNat
    let p := Run.run feed p₀ readings
    (p.suspended = true ↔ ∃ j ≤ readings.length, k ≤ j ∧
      (∀ r ∈ (readings.take j).drop (j - k), r < config.suspendVideoBps) ∧
        ∀ r ∈ readings.drop j, r < config.audioOnlyBps) ∧
    ∀ bps, (p.update bps).2 = .suspendVideo ↔ p.suspended = false ∧
      k ≤ (readings ++ [bps]).length ∧
        ∀ r ∈ (readings ++ [bps]).drop ((readings ++ [bps]).length - k),
          r < config.suspendVideoBps := by
  obtain ⟨hc, rfl⟩ := (tryWithConfig_eq_ok_iff config p₀).mp h
  intro k p
  have hp : FollowsHistory config readings p := followsHistory_run hc readings
  refine ⟨hp.suspended_iff.trans (suspendedBy_iff config readings), fun bps => ?_⟩
  rw [hp.suspendVideo_iff hc (feed_reacts p bps), le_lowReadings_iff]

/-- Two low readings suspend a default pacer, and a middling one leaves it suspended. -/
theorem suspension_history_default :
    (Run.run feed (fresh .default) [200000, 5000, 5000, 50000]).suspended = true :=
  (suspension_history .default (fresh .default) tryWithConfig_default
    [200000, 5000, 5000, 50000]).1.mpr (by decide)

end SfuKit.SubscriberPacer
