import SfuKit.Library.Ladder
import SfuKit.Pacer.UpgradeEvidence

/-! # The layers as a hysteresis ladder

In full-video mode, and on readings that keep it there, a pacer is a ladder: its level is the
rank of the current layer, its inputs are the ranks of the layers the readings ask for. Two
pacers fed readings of which one dominates the other are two ladders in lockstep.
-/
namespace SfuKit.SubscriberPacer

open Library

variable {config : PacerConfig} {p q : SubscriberPacer} {bps : ℕ} {action : PacerAction}

def ladder (p : SubscriberPacer) : Ladder ℕ := ⟨rank p.currentLayer, p.upgradeStreak.toNat⟩

def tier (p : SubscriberPacer) (bps : ℕ) : ℕ := rank (p.layerForBps bps)

theorem tier_congr (h : q.config = p.config) (bps : ℕ) : q.tier bps = p.tier bps := by
  unfold tier layerForBps
  rw [h]

theorem tier_mono (hc : p.config.Valid) {a b : ℕ} (h : a ≤ b) : p.tier a ≤ p.tier b := by
  have hle := hc.medium_le
  unfold tier layerForBps
  split_ifs
  any_goals decide
  all_goals omega

/-- The layer decision is a step of the ladder, and keeps full video. -/
theorem ladder_feed (hc : p.config.Valid) (hfull : p.FullVideo)
    (hb : p.config.audioOnlyBps ≤ bps) : (p.feed bps).FullVideo ∧
      (p.feed bps).ladder = p.ladder.step p.config.upgradeStreak.toNat (p.tier bps) := by
  have hsuspend := hc.suspend_le.trans hb
  obtain ⟨hs, ha⟩ := hfull
  have hr := p.feed_reacts bps
  generalize p.feed bps = q at hr ⊢
  generalize (p.update bps).2 = action at hr
  cases hr with
  | restoreAudio hs' | staySuspended hs' => simp [hs] at hs'
  | suspendVideo _ hv | debounce _ _ hv => omega
  | restoreVideo _ _ ha' | stayAudioOnly _ _ ha' => simp [ha] at ha'
  | goAudioOnly _ _ _ hb' => omega
  | downgrade _ _ _ _ hr =>
    refine ⟨⟨hs, ha⟩, ?_⟩
    rw [Ladder.step_of_le _ hr.le]
    rfl
  | upgrade _ _ _ _ hr hk =>
    refine ⟨⟨hs, ha⟩, ?_⟩
    rw [Ladder.step_of_completes hk]
    rfl
  | countUp s _ _ _ _ hr hk hn =>
    refine ⟨⟨hs, ha⟩, ?_⟩
    rw [Ladder.step_of_counts hr hk, ladder, hn]
    rfl
  | keepLayer _ _ _ _ hr =>
    refine ⟨⟨hs, ha⟩, ?_⟩
    rw [Ladder.step_of_le _ hr.le, tier, hr]
    rfl

/-- The first pacer leaps from `LOW` to `HIGH` while the second is counting on `MEDIUM`. -/
def Overtakes (p q : SubscriberPacer) (bps : ℕ) : Prop :=
  p.currentLayer = .low ∧ q.currentLayer = .medium ∧ p.config.highMinBps ≤ bps ∧
    p.config.upgradeStreak.toNat ≤ p.upgradeStreak.toNat + 1 ∧
      q.upgradeStreak.toNat + 1 < q.config.upgradeStreak.toNat

instance (p q : SubscriberPacer) (bps : ℕ) : Decidable (p.Overtakes q bps) :=
  inferInstanceAs (Decidable (p.currentLayer = .low ∧ q.currentLayer = .medium ∧
    p.config.highMinBps ≤ bps ∧ p.config.upgradeStreak.toNat ≤ p.upgradeStreak.toNat + 1 ∧
      q.upgradeStreak.toNat + 1 < q.config.upgradeStreak.toNat))

/-- With three ranks there is one way to overtake. -/
theorem overtakes_iff (hc : p.config.Valid) (hconf : q.config = p.config)
    (hp : p.currentLayer.Known) (hq : q.currentLayer.Known) :
    p.Overtakes q bps ↔
      Ladder.Overtakes p.config.upgradeStreak.toNat p.ladder q.ladder (p.tier bps) := by
  unfold Overtakes Ladder.Overtakes ladder
  rw [highMinBps_le_iff hc, hconf]
  dsimp only
  constructor
  · rintro ⟨hlow, hmedium, hhigh, hk, hcount⟩
    rw [hlow, hmedium, rank_low, rank_medium]
    exact ⟨by decide, hhigh, hk, hcount⟩
  · rintro ⟨hlt, htier, hk, hcount⟩
    have hle : p.tier bps ≤ 2 := (layerForBps_known p bps).rank_le
    have hlow : p.currentLayer = .low := hp.eq_of_rank (.inl rfl) (by rw [rank_low]; omega)
    have hmedium : q.currentLayer = .medium :=
      hq.eq_of_rank (.inr (.inl rfl)) (by rw [rank_medium]; omega)
    rw [hmedium, rank_medium] at htier
    exact ⟨hlow, hmedium, htier, hk, hcount⟩

def NotAbove (s : SubscriberPacer × SubscriberPacer) : Prop :=
  rank s.1.currentLayer ≤ rank s.2.currentLayer

/-- Two pacers in full video, the second no lower than the first. -/
structure Dominated (config : PacerConfig) (s : SubscriberPacer × SubscriberPacer) : Prop where
  config_left : s.1.config = config
  config_right : s.2.config = config
  full_left : s.1.FullVideo
  full_right : s.2.FullVideo
  layer_left : s.1.currentLayer.Known
  layer_right : s.2.currentLayer.Known
  below : s.1.ladder.Below s.2.ladder

theorem known_feed (h : p.currentLayer.Known) (bps : ℕ) : (p.feed bps).currentLayer.Known := by
  have hr := p.feed_reacts bps
  generalize p.feed bps = q at hr ⊢
  generalize (p.update bps).2 = action at hr
  cases hr with
  | restoreVideo => exact .inl rfl
  | downgrade | upgrade => exact layerForBps_known p bps
  | _ => exact h

/-- Neither run can leave full video on these readings, and their ladders keep their order. -/
theorem Dominated.feed (hc : config.Valid) {s : SubscriberPacer × SubscriberPacer}
    (h : Dominated config s) {ab : ℕ × ℕ} (hab : config.lowMinBps ≤ ab.1 ∧ ab.1 ≤ ab.2)
    (hno : ¬ s.1.Overtakes s.2 ab.1) : Dominated config (Run.pair feed feed s ab) := by
  obtain ⟨p, q⟩ := s
  obtain ⟨a, b⟩ := ab
  obtain ⟨rfl, hq, hpf, hqf, hpl, hql, hbelow⟩ := h
  obtain ⟨ha, hle⟩ := hab
  dsimp only at *
  have haudio := hc.audio_le.trans ha
  obtain ⟨hpf', hps⟩ := ladder_feed hc hpf haudio
  rw [← hq] at hc haudio
  obtain ⟨hqf', hqs⟩ := ladder_feed hc hqf (haudio.trans hle)
  rw [hq, tier_congr hq] at hqs
  rw [hq] at hc
  refine ⟨feed_config p a, (feed_config q b).trans hq, hpf', hqf', known_feed hpl a,
    known_feed hql b, ?_⟩
  dsimp only [Run.pair]
  rw [hps, hqs]
  exact hbelow.step (tier_mono hc hle) ((overtakes_iff hc hq hpl hql).not.mp hno)

theorem Dominated.not_overtakes (hc : config.Valid) {s : SubscriberPacer × SubscriberPacer}
    (h : Dominated config s) {ab : ℕ × ℕ} (hab : config.lowMinBps ≤ ab.1 ∧ ab.1 ≤ ab.2)
    (hle : NotAbove (Run.pair SubscriberPacer.feed SubscriberPacer.feed s ab)) :
    ¬ s.1.Overtakes s.2 ab.1 := by
  obtain ⟨p, q⟩ := s
  obtain ⟨a, b⟩ := ab
  obtain ⟨rfl, hq, hpf, hqf, hpl, hql, -⟩ := h
  obtain ⟨ha, hab⟩ := hab
  dsimp only [NotAbove, Run.pair] at *
  have haudio := hc.audio_le.trans ha
  have hps := (ladder_feed hc hpf haudio).2
  intro hover
  rw [overtakes_iff hc hq hpl hql] at hover
  have hlt := hover.level_lt (tier_mono hc hab)
  rw [← hq] at hc haudio
  have hqs := (ladder_feed hc hqf (haudio.trans hab)).2
  rw [hq, tier_congr hq] at hqs
  rw [← hps, ← hqs] at hlt
  exact absurd hle (not_le.mpr hlt)

/-- Two fresh pacers fed readings from `low_min_bps` on, the second never a lower one: after every
prefix the second is on no lower a layer, exactly when the first never leaps from `LOW` to `HIGH`
while the second is counting on `MEDIUM`. -/
theorem more_bandwidth_iff (config : PacerConfig) (p₀ : SubscriberPacer)
    (h : tryWithConfig config = .ok p₀) (readings : List (ℕ × ℕ))
    (hle : ∀ ab ∈ readings, config.lowMinBps ≤ ab.1 ∧ ab.1 ≤ ab.2) :
    (∀ pre, pre <+: readings → rank (Run.run feed p₀ (pre.map Prod.fst)).currentLayer ≤
        rank (Run.run feed p₀ (pre.map Prod.snd)).currentLayer) ↔
      Run.Along (Run.pair feed feed) (fun s ab => ¬ s.1.Overtakes s.2 ab.1) (p₀, p₀) readings := by
  obtain ⟨hc, rfl⟩ := (tryWithConfig_eq_ok_iff config p₀).mp h
  have hfresh : Dominated config (fresh config, fresh config) :=
    ⟨rfl, rfl, ⟨rfl, rfl⟩, ⟨rfl, rfl⟩, .inl rfl, .inl rfl, Ladder.below_refl _⟩
  have hweak : ∀ s, Dominated config s → NotAbove s := fun s h => h.below.level_le
  have hkeep : ∀ s (ab : ℕ × ℕ), Dominated config s → (config.lowMinBps ≤ ab.1 ∧ ab.1 ≤ ab.2) →
      ¬ s.1.Overtakes s.2 ab.1 → Dominated config (Run.pair feed feed s ab) :=
    fun _ _ h hab => h.feed hc hab
  have hneed : ∀ s (ab : ℕ × ℕ), Dominated config s → (config.lowMinBps ≤ ab.1 ∧ ab.1 ≤ ab.2) →
      NotAbove (Run.pair feed feed s ab) → ¬ s.1.Overtakes s.2 ab.1 :=
    fun _ _ h hab => h.not_overtakes hc hab
  have hruns := Run.forall_prefix_iff_weak hkeep hneed hweak hfresh (Run.along_of_forall hle _)
  simpa only [NotAbove, Run.run_pair] using hruns

/-- With more bandwidth at the first reading alone, the second pacer ends up on `MEDIUM` while the
first leaps to `HIGH`. -/
theorem more_bandwidth_fails :
    let x := [200000, 400000, 400000, 800000]
    let y := [400000, 400000, 400000, 800000]
    (∀ ab ∈ x.zip y, PacerConfig.default.lowMinBps ≤ ab.1 ∧ ab.1 ≤ ab.2) ∧
      ¬ rank (Run.run feed (fresh .default) x).currentLayer ≤
        rank (Run.run feed (fresh .default) y).currentLayer := by
  decide

theorem more_bandwidth_iff_default :
    rank (Run.run feed (fresh .default) ([(200000, 400000), (400000, 800000)].map
      Prod.fst)).currentLayer ≤ rank (Run.run feed (fresh .default)
        ([(200000, 400000), (400000, 800000)].map Prod.snd)).currentLayer :=
  (more_bandwidth_iff .default (fresh .default) tryWithConfig_default
    [(200000, 400000), (400000, 800000)] (by decide)).mpr (by decide) _ List.prefix_rfl

end SfuKit.SubscriberPacer
