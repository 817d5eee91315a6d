import SfuKit.Pacer.SuspendHistory
import SfuKit.Pacer.UpgradeEvidence

/-! # How long a reading may be overspent

Outside the suspend debounce a pacer in full video is on a layer that its last reading can
sustain. The debounce is the one exception, and a bandwidth that keeps recovering in time keeps
the exception open for ever.
-/
namespace SfuKit.SubscriberPacer

open Library

variable {config : PacerConfig} {readings : List ℕ} {p q : SubscriberPacer} {bps : ℕ}
  {action : PacerAction}

/-- A layer no higher than the one a reading asks for is `LOW`, or its bitrate is reached. -/
theorem sustained_of_rank_le (hc : p.config.Valid) {l : SfuRid} (hl : l.Known)
    (h : rank l ≤ rank (p.layerForBps bps)) : l = .low ∨ p.config.minBps l ≤ bps := by
  by_cases hpos : 0 < rank l
  · exact .inr ((minBps_le_iff hc hl hpos).mpr h)
  · exact .inl (hl.eq_of_rank (.inl rfl) (by rw [rank_low]; omega))

theorem exposure_react (hc : config.Valid) (h : Represented config readings p)
    (hist : FollowsHistory config readings p) (hr : Reacts p bps q action) (hfull : q.FullVideo) :
    (q.currentLayer = .low ∧ config.audioOnlyBps ≤ bps) ∨ config.minBps q.currentLayer ≤ bps ∨
      (bps < config.suspendVideoBps ∧
        lowReadings config (readings ++ [bps]) < config.suspendStreak.toNat) := by
  obtain rfl := h.config_eq
  have hsustained : p.config.audioOnlyBps ≤ bps → ∀ l : SfuRid, l.Known →
      rank l ≤ rank (p.layerForBps bps) → (l = .low ∧ p.config.audioOnlyBps ≤ bps) ∨
        p.config.minBps l ≤ bps := fun hb l hl hle =>
    (sustained_of_rank_le hc hl hle).imp (fun hlow => ⟨hlow, hb⟩) id
  obtain ⟨hqs, hqa⟩ := hfull
  cases hr with
  | restoreAudio | suspendVideo | goAudioOnly => cases hqa
  | staySuspended hs => simp [hs] at hqs
  | stayAudioOnly hs hv ha => simp [ha] at hqa
  | debounce s hs hv hk =>
    right; right
    rw [lowReadings_low hv, ← hist.streak hs]
    exact ⟨hv, hk⟩
  | restoreVideo hs hv ha hb => exact .inl ⟨rfl, hc.audio_le.trans hb⟩
  | downgrade hs hv ha hb | upgrade hs hv ha hb =>
    exact (hsustained hb _ (layerForBps_known p bps) le_rfl).imp id .inl
  | countUp s hs hv ha hb hr => exact (hsustained hb _ h.layer hr.le).imp id .inl
  | keepLayer hs hv ha hb hr => exact (hsustained hb _ h.layer hr.ge).imp id .inl

/-- After every reading that leaves a pacer in full video, the reading sustains the layer it is
on, or is at least `audio_only_bps` on `LOW`, or belongs to a streak of low ones that is too
short to suspend. -/
theorem exposure_bounded (config : PacerConfig) (p₀ : SubscriberPacer)
    (h : tryWithConfig config = .ok p₀) (readings : List ℕ) (bps : ℕ) :
    let q := Run.run feed p₀ (readings ++ [bps])
    q.FullVideo →
      (q.currentLayer = .low ∧ config.audioOnlyBps ≤ bps) ∨ config.minBps q.currentLayer ≤ bps ∨
        (bps < config.suspendVideoBps ∧
          lowReadings config (readings ++ [bps]) < config.suspendStreak.toNat) := by
  obtain ⟨hc, rfl⟩ := (tryWithConfig_eq_ok_iff config p₀).mp h
  intro q hfull
  have hq : q = feed (Run.run feed (fresh config) readings) bps := Run.run_concat _ _ _ _
  rw [hq] at hfull ⊢
  exact exposure_react hc (represented_run hc readings) (followsHistory_run hc readings)
    (feed_reacts _ bps) hfull

/-- A default pacer on `MEDIUM` that has met one low reading. -/
theorem exposure_bounded_default :
    let q := Run.run feed (fresh .default) ([400000, 400000, 400000] ++ [5000])
    (q.currentLayer = .low ∧ PacerConfig.default.audioOnlyBps ≤ 5000) ∨
      PacerConfig.default.minBps q.currentLayer ≤ 5000 ∨
        (5000 < PacerConfig.default.suspendVideoBps ∧
          lowReadings .default ([400000, 400000, 400000] ++ [5000]) <
            PacerConfig.default.suspendStreak.toNat) :=
  exposure_bounded .default (fresh .default) tryWithConfig_default [400000, 400000, 400000] 5000
    (by decide)

/-- A low reading in full video: absorbed, or the last of a streak. -/
theorem feed_low (hfull : p.FullVideo) (hv : bps < p.config.suspendVideoBps) :
    (p.config.suspendStreak.toNat ≤ p.suspendStreak.toNat + 1 ∧ (p.feed bps).audioOnly = true) ∨
      (p.suspendStreak.toNat + 1 < p.config.suspendStreak.toNat ∧ (p.feed bps).FullVideo) := by
  obtain ⟨hs, ha⟩ := hfull
  have hr := p.feed_reacts bps
  generalize p.feed bps = q at hr ⊢
  generalize (p.update bps).2 = action at hr
  cases hr with
  | suspendVideo _ _ hk => exact .inl ⟨hk, rfl⟩
  | debounce s _ _ hk => exact .inr ⟨hk, hs, ha⟩
  | restoreAudio hs' | staySuspended hs' => simp [hs] at hs'
  | restoreVideo _ hv' | stayAudioOnly _ hv' | goAudioOnly _ hv' | downgrade _ hv'
  | upgrade _ hv' | countUp _ _ hv' | keepLayer _ hv' => omega

/-- A recovered reading in full video clears the streak, and leaves full video only below
`audio_only_bps`. -/
theorem feed_recovered (hfull : p.FullVideo) (hv : p.config.suspendVideoBps ≤ bps) :
    (bps < p.config.audioOnlyBps ∧ (p.feed bps).audioOnly = true) ∨
      (p.config.audioOnlyBps ≤ bps ∧ (p.feed bps).FullVideo ∧ (p.feed bps).suspendStreak = 0) := by
  obtain ⟨hs, ha⟩ := hfull
  have hr := p.feed_reacts bps
  generalize p.feed bps = q at hr ⊢
  generalize (p.update bps).2 = action at hr
  cases hr with
  | goAudioOnly _ _ _ hb => exact .inl ⟨hb, rfl⟩
  | downgrade _ _ _ hb | upgrade _ _ _ hb | countUp _ _ _ _ hb | keepLayer _ _ _ hb =>
    exact .inr ⟨hb, ⟨hs, ha⟩, rfl⟩
  | restoreAudio hs' | staySuspended hs' => simp [hs] at hs'
  | suspendVideo _ hv' | debounce _ _ hv' => omega
  | restoreVideo _ _ ha' | stayAudioOnly _ _ ha' => simp [ha] at ha'

/-- The readings of a collapse that keeps recovering, pair by pair. -/
def alternating (pairs : List (ℕ × ℕ)) : List ℕ := pairs.flatMap fun xy => [xy.1, xy.2]

def Catches (p : SubscriberPacer) (readings : List ℕ) : Prop :=
  ∃ pre, pre <+: readings ∧ (Run.run feed p pre).audioOnly = true

theorem catches_nil (p : SubscriberPacer) : p.Catches [] ↔ p.audioOnly = true := by
  simp [Catches, List.prefix_nil]

theorem catches_cons (p : SubscriberPacer) (bps : ℕ) (readings : List ℕ) :
    p.Catches (bps :: readings) ↔ p.audioOnly = true ∨ (p.feed bps).Catches readings :=
  @Run.exists_prefix_cons _ _ feed (fun q => q.audioOnly = true) p bps readings

/-- Over any number of pairs, only a recovered reading below `audio_only_bps` takes a pacer out
of full video, unless its streak was about to end. -/
theorem catches_alternating_iff (hk : 2 ≤ p.config.suspendStreak.toNat) (hfull : p.FullVideo)
    (pairs : List (ℕ × ℕ)) (hpairs : ∀ xy ∈ pairs, xy.1 < p.config.suspendVideoBps ∧
      p.config.suspendVideoBps ≤ xy.2) :
    p.Catches (alternating pairs) ↔ (∃ xy ∈ pairs, xy.2 < p.config.audioOnlyBps) ∨
      (pairs ≠ [] ∧ p.config.suspendStreak.toNat ≤ p.suspendStreak.toNat + 1) := by
  induction pairs generalizing p with
  | nil =>
    rw [alternating, List.flatMap_nil, catches_nil, hfull.2]
    simp
  | cons xy pairs ih =>
    obtain ⟨x, y⟩ := xy
    obtain ⟨hx, hy⟩ := hpairs (x, y) List.mem_cons_self
    have hrest : ∀ xy ∈ pairs, xy.1 < p.config.suspendVideoBps ∧
        p.config.suspendVideoBps ≤ xy.2 := fun xy hxy => hpairs xy (List.mem_cons_of_mem _ hxy)
    have hcons : p.Catches (alternating ((x, y) :: pairs)) ↔ (p.feed x).audioOnly = true ∨
        ((p.feed x).feed y).Catches (alternating pairs) := by
      have hflat : alternating ((x, y) :: pairs) = x :: y :: alternating pairs := rfl
      rw [hflat, catches_cons, catches_cons, hfull.2]
      simp
    rw [hcons]
    rcases feed_low hfull hx with ⟨hstreak, haudio⟩ | ⟨hstreak, hfull'⟩
    · simp [haudio, hstreak]
    · rw [hfull'.2]
      have hy' : (p.feed x).config.suspendVideoBps ≤ y := by rwa [feed_config]
      rcases feed_recovered hfull' hy' with ⟨hb, haudio⟩ | ⟨hb, hfull'', hzero⟩
      · -- The recovered reading itself goes audio-only.
        rw [feed_config] at hb
        have hcatch : ((p.feed x).feed y).Catches (alternating pairs) :=
          ⟨[], List.nil_prefix, haudio⟩
        simp [hcatch, hb]
      · rw [feed_config] at hb
        have hconf : ((p.feed x).feed y).config = p.config := by rw [feed_config, feed_config]
        have hnot : ¬ p.config.suspendStreak.toNat ≤ ((p.feed x).feed y).suspendStreak.toNat + 1 := by
          rw [hzero]
          exact not_le.mpr hk
        have hind := ih (hconf ▸ hk) hfull'' (hconf ▸ hrest)
        rw [hconf] at hind
        rw [hind]
        simp [hnot, not_le.mpr hstreak, not_lt.mpr hb]

/-- From every reachable full-video state, readings that alternate below `suspend_video_bps` and
back take the pacer to audio-only within the first two pairs exactly when one of the two recovered
readings is below `audio_only_bps`, or the first reading already ends a streak. -/
theorem collapse_caught_iff (config : PacerConfig) (p₀ : SubscriberPacer)
    (h : tryWithConfig config = .ok p₀) (hk : 2 ≤ config.suspendStreak.toNat) (readings : List ℕ)
    (hfull : (Run.run feed p₀ readings).FullVideo) (pairs : List (ℕ × ℕ)) (hlen : 2 ≤ pairs.length)
    (hpairs : ∀ xy ∈ pairs, xy.1 < config.suspendVideoBps ∧ config.suspendVideoBps ≤ xy.2) :
    let p := Run.run feed p₀ readings
    p.Catches (alternating (pairs.take 2)) ↔
      (∃ xy ∈ pairs.take 2, xy.2 < config.audioOnlyBps) ∨
        config.suspendStreak.toNat ≤ p.suspendStreak.toNat + 1 := by
  obtain ⟨hc, rfl⟩ := (tryWithConfig_eq_ok_iff config p₀).mp h
  intro p
  have hconf : p.config = config := (represented_run hc readings).config_eq
  rw [← hconf] at hk hpairs ⊢
  have hne : pairs.take 2 ≠ [] := by
    intro he
    have hzero := congrArg List.length he
    rw [List.length_take, List.length_nil] at hzero
    omega
  rw [catches_alternating_iff hk hfull (pairs.take 2) fun xy hxy =>
    hpairs xy (List.mem_of_mem_take hxy)]
  simp [hne]

/-- A default pacer on `MEDIUM` sits out a collapse that recovers to 200 kbit/s in between. -/
theorem collapse_caught_fails :
    let p := Run.run feed (fresh .default) [400000, 400000, 400000]
    p.FullVideo ∧ ¬ p.Catches (alternating [(5000, 200000), (5000, 200000)]) := by
  refine ⟨by decide, ?_⟩
  have hflat : alternating [(5000, 200000), (5000, 200000)] = [5000, 200000, 5000, 200000] := rfl
  rw [hflat, catches_cons, catches_cons, catches_cons, catches_cons, catches_nil]
  decide

theorem collapse_caught_iff_default :
    (Run.run feed (fresh .default) [400000, 400000, 400000]).Catches
      (alternating ([(5000, 200000), (5000, 50000)].take 2)) :=
  (collapse_caught_iff .default (fresh .default) tryWithConfig_default (by decide)
    [400000, 400000, 400000] (by decide) [(5000, 200000), (5000, 50000)] (by decide)
    (by decide)).mpr (by decide)

end SfuKit.SubscriberPacer
