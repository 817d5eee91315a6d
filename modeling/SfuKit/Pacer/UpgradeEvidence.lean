import SfuKit.Library.Streak
import SfuKit.Pacer.Representation

/-! # What an upgrade rests on

The upgrade streak counts readings above the current layer. A reading absorbed by the suspend
debounce leaves the count alone, so a streak may have a hole. The target of an upgrade is the
layer of its last reading, so a streak counted at `LOW` may end on `HIGH`.
-/
namespace SfuKit.SubscriberPacer

open Library Streak

variable {config : PacerConfig} {readings : List ℕ} {p q : SubscriberPacer} {bps : ℕ}
  {action : PacerAction}

/-- The suspend debounce absorbs the reading while an upgrade streak is pending. -/
def SwallowsLow (p : SubscriberPacer) (bps : ℕ) : Prop :=
  p.suspended = false ∧ bps < p.config.suspendVideoBps ∧
    p.suspendStreak.toNat + 1 < p.config.suspendStreak.toNat ∧ 0 < p.upgradeStreak

instance (p : SubscriberPacer) (bps : ℕ) : Decidable (p.SwallowsLow bps) :=
  inferInstanceAs (Decidable (p.suspended = false ∧ bps < p.config.suspendVideoBps ∧
    p.suspendStreak.toNat + 1 < p.config.suspendStreak.toNat ∧ 0 < p.upgradeStreak))

/-- The pending streak consists of the last readings. -/
structure CountsAbove (config : PacerConfig) (readings : List ℕ) (p : SubscriberPacer) :
    Prop extends Represented config readings p where
  streak : p.upgradeStreak.toNat ≤ trailing p.Above readings

theorem above_congr (hconf : q.config = p.config) (hlayer : q.currentLayer = p.currentLayer)
    (bps : ℕ) : q.Above bps ↔ p.Above bps := by
  unfold Above layerForBps
  rw [hconf, hlayer]

theorem not_above_of_low (hc : p.config.Valid) (hv : bps < p.config.suspendVideoBps) :
    ¬ p.Above bps := by
  have hlt : bps < p.config.mediumMinBps :=
    hv.trans_le (hc.suspend_le.trans (hc.audio_le.trans hc.low_le))
  unfold Above
  rw [layerForBps_low hc hlt, rank_low]
  omega

/-- A reading that the debounce does not swallow restarts the count unless it is above. -/
theorem restarts (h : Represented config readings p)
    (hr : Reacts p bps q action) (hno : ¬ p.SwallowsLow bps)
    (habove : ¬ p.Above bps) : q.upgradeStreak = 0 := by
  cases hr with
  | restoreAudio | suspendVideo | restoreVideo | goAudioOnly | downgrade | upgrade | keepLayer => rfl
  | staySuspended hs => exact (h.suspended hs).2.1
  | debounce s hs hv hk =>
    by_contra hne
    exact hno ⟨hs, hv, hk, UInt8.pos_iff_ne_zero.mpr hne⟩
  | stayAudioOnly hs hv ha => exact h.audioOnly ha
  | countUp s hs hv ha hb hr => exact absurd hr habove

theorem upgradeStreak_of_swallows (hno : p.SwallowsLow bps) : 0 < (p.feed bps).upgradeStreak := by
  obtain ⟨hs, hv, hk, hz⟩ := hno
  have hr := p.feed_reacts bps
  generalize p.feed bps = q at hr ⊢
  generalize (p.update bps).2 = action at hr
  cases hr with
  | debounce => exact hz
  | restoreAudio hs' => simp [hs] at hs'
  | staySuspended hs' => simp [hs] at hs'
  | suspendVideo _ _ hk' => omega
  | restoreVideo _ hv' | stayAudioOnly _ hv' | goAudioOnly _ hv' | downgrade _ hv'
  | upgrade _ hv' | countUp _ _ hv' | keepLayer _ hv' => omega

theorem CountsAbove.react (hc : config.Valid) (h : CountsAbove config readings p)
    (hr : Reacts p bps q action) (hno : ¬ p.SwallowsLow bps) :
    CountsAbove config (readings ++ [bps]) q := by
  have hrep := h.toRepresented.react hc hr
  have hzero : q.upgradeStreak = 0 → CountsAbove config (readings ++ [bps]) q := fun h0 =>
    ⟨hrep, by rw [h0]; exact Nat.zero_le _⟩
  by_cases habove : p.Above bps
  · cases hr with
    | countUp s hs hv ha hb hr hk hn =>
      have hstreak := h.streak
      have hcount : s.toNat ≤ trailing p.Above (readings ++ [bps]) := by
        rw [trailing_concat, if_pos habove]
        omega
      exact ⟨hrep, hcount.trans (trailing_mono _ (fun r => (above_congr rfl rfl r).mpr) _)⟩
    | staySuspended hs => exact hzero (h.suspended hs).2.1
    | stayAudioOnly hs hv ha => exact hzero (h.audioOnly ha)
    | debounce s hs hv =>
      rw [← h.config_eq] at hc
      exact absurd habove (not_above_of_low hc hv)
    | restoreAudio | suspendVideo | restoreVideo | goAudioOnly | downgrade | upgrade
    | keepLayer => exact hzero rfl
  · exact hzero (restarts h.toRepresented hr hno habove)

/-- An upgrade ends a full streak of readings above the layer it leaves. -/
theorem CountsAbove.upgrade_streak (h : CountsAbove config readings p) (hr : Reacts p bps q action)
    {l : SfuRid} (hact : action = .changeLayer l) (hup : rank p.currentLayer < rank l) :
    config.upgradeStreak.toNat ≤ trailing p.Above (readings ++ [bps]) := by
  cases hr with
  | upgrade hs hv ha hb hr hk =>
    rw [h.config_eq] at hk
    rw [trailing_concat, if_pos (show p.Above bps from hr)]
    exact hk.trans (Nat.add_le_add_right h.streak 1)
  | downgrade hs hv ha hb hr =>
    obtain rfl := PacerAction.changeLayer.inj hact
    omega
  | _ => cases hact

/-- Over any readings fed to a fresh pacer: every upgrade ends `upgrade_streak` readings in a row
above the layer it leaves, and every other reading restarts the count, exactly when the suspend
debounce never swallows a reading while an upgrade streak is pending. -/
theorem upgrade_evidence_iff (config : PacerConfig) (p₀ : SubscriberPacer)
    (h : tryWithConfig config = .ok p₀) (readings : List ℕ) :
    (∀ pre bps, pre ++ [bps] <+: readings →
      let p := Run.run feed p₀ pre
      (∀ l, (p.update bps).2 = .changeLayer l → rank p.currentLayer < rank l →
        config.upgradeStreak.toNat ≤ (pre ++ [bps]).length ∧
          ∀ r ∈ (pre ++ [bps]).drop ((pre ++ [bps]).length - config.upgradeStreak.toNat),
            rank p.currentLayer < rank (p.layerForBps r)) ∧
      (¬ rank p.currentLayer < rank (p.layerForBps bps) → (p.feed bps).upgradeStreak = 0)) ↔
    Run.Along feed (fun p bps => ¬ p.SwallowsLow bps) p₀ readings := by
  obtain ⟨hc, rfl⟩ := (tryWithConfig_eq_ok_iff config p₀).mp h
  rw [Run.along_iff_prefix]
  constructor
  · intro hall pre bps hpre hswallow
    rw [← (represented_run hc pre).config_eq] at hc
    have hzero := (hall pre bps hpre).2 (not_above_of_low hc hswallow.2.1)
    exact absurd hzero (UInt8.pos_iff_ne_zero.mp (upgradeStreak_of_swallows hswallow))
  · intro hno pre bps hpre p
    have hstep : ∀ l p bps, CountsAbove config l p → ¬ p.SwallowsLow bps →
        CountsAbove config (l ++ [bps]) (feed p bps) :=
      fun _ p bps h hno => h.react hc (feed_reacts p bps) hno
    have halong : Run.Along feed (fun p bps => ¬ p.SwallowsLow bps) (fresh config) pre :=
      (Run.along_iff_prefix _ _ _).mpr fun pre' bps' hpre' =>
        hno pre' bps' (hpre'.trans ((List.prefix_append pre [bps]).trans hpre))
    have hp : CountsAbove config pre p :=
      Run.history_invariant hstep ⟨represented_fresh hc, Nat.zero_le _⟩ halong
    refine ⟨fun l hact hup => ?_, restarts hp.toRepresented (feed_reacts p bps) (hno pre bps hpre)⟩
    exact (le_trailing_iff _ _ _).mp (hp.upgrade_streak (feed_reacts p bps) hact hup)

/-- A default pacer: two readings above, one swallowed, one above, and it upgrades. -/
theorem upgrade_evidence_fails :
    let p := Run.run feed (fresh .default) [400000, 400000, 5000]
    (p.update 400000).2 = .changeLayer .medium ∧ rank p.currentLayer < rank .medium ∧
      ¬ ∀ r ∈ ([400000, 400000, 5000] ++ [400000]).drop
          (([400000, 400000, 5000] ++ [400000]).length - PacerConfig.default.upgradeStreak.toNat),
        rank p.currentLayer < rank (p.layerForBps r) := by
  decide

/-- Three readings above in a row upgrade a default pacer. -/
theorem upgrade_evidence_iff_default :
    PacerConfig.default.upgradeStreak.toNat ≤ ([400000, 400000] ++ [400000]).length ∧
      ∀ r ∈ ([400000, 400000] ++ [400000]).drop
          (([400000, 400000] ++ [400000]).length - PacerConfig.default.upgradeStreak.toNat),
        rank (Run.run feed (fresh .default) [400000, 400000]).currentLayer <
          rank ((Run.run feed (fresh .default) [400000, 400000]).layerForBps r) :=
  ((upgrade_evidence_iff .default (fresh .default) tryWithConfig_default
    [400000, 400000, 400000]).mpr (by decide) [400000, 400000] 400000 List.prefix_rfl).1 .medium
      (by decide) (by decide)

/-- A pacer with the readings its pending upgrade streak has counted. -/
structure Tally where
  pacer : SubscriberPacer
  counted : List ℕ
deriving DecidableEq

namespace Tally

/-- The readings are forgotten with the streak, kept with it, and one is added as it grows. -/
def feed (t : Tally) (bps : ℕ) : Tally where
  pacer := t.pacer.feed bps
  counted :=
    if (t.pacer.feed bps).upgradeStreak = 0 then []
    else if (t.pacer.feed bps).upgradeStreak = t.pacer.upgradeStreak then t.counted
    else t.counted ++ [bps]

/-- The reading completes at `LOW` a streak that has counted less than `high_min_bps`, and is
itself at least that. -/
def Leaps (t : Tally) (bps : ℕ) : Prop :=
  t.pacer.FullVideo ∧ t.pacer.currentLayer = .low ∧ t.pacer.config.highMinBps ≤ bps ∧
    t.pacer.config.upgradeStreak.toNat ≤ t.pacer.upgradeStreak.toNat + 1 ∧
      ∃ r ∈ t.counted, r < t.pacer.config.highMinBps

instance (t : Tally) (bps : ℕ) : Decidable (t.Leaps bps) :=
  inferInstanceAs (Decidable (t.pacer.FullVideo ∧ t.pacer.currentLayer = .low ∧
    t.pacer.config.highMinBps ≤ bps ∧
      t.pacer.config.upgradeStreak.toNat ≤ t.pacer.upgradeStreak.toNat + 1 ∧
        ∃ r ∈ t.counted, r < t.pacer.config.highMinBps))

@[simp] theorem run_pacer (t : Tally) (readings : List ℕ) :
    (Run.run feed t readings).pacer = Run.run SubscriberPacer.feed t.pacer readings := by
  induction readings generalizing t with
  | nil => rfl
  | cons bps readings ih => rw [Run.run_cons, Run.run_cons, ih]; rfl

/-- As many readings as the streak says, each above the current layer. -/
structure Sound (config : PacerConfig) (readings : List ℕ) (t : Tally) : Prop where
  represented : Represented config readings t.pacer
  length : t.counted.length = t.pacer.upgradeStreak.toNat
  above : ∀ r ∈ t.counted, t.pacer.Above r

/-- The upgrade streak is cleared, kept with the layer, or grows by a reading above it. -/
theorem upgradeStreak_cases (h : Represented config readings p) (hr : Reacts p bps q action) :
    q.upgradeStreak = 0 ∨
      (q.upgradeStreak = p.upgradeStreak ∧ ∀ r, p.Above r → q.Above r) ∨
      (q.upgradeStreak.toNat = p.upgradeStreak.toNat + 1 ∧ (∀ r, p.Above r → q.Above r) ∧
        p.Above bps) := by
  cases hr with
  | restoreAudio | suspendVideo | restoreVideo | goAudioOnly | downgrade | upgrade
  | keepLayer => exact .inl rfl
  | staySuspended hs => exact .inl (h.suspended hs).2.1
  | stayAudioOnly hs hv ha => exact .inl (h.audioOnly ha)
  | debounce => exact .inr (.inl ⟨rfl, fun r => (above_congr rfl rfl r).mpr⟩)
  | countUp s hs hv ha hb hr hk hn =>
    exact .inr (.inr ⟨hn, fun r => (above_congr rfl rfl r).mpr, hr⟩)

theorem Sound.feed (hc : config.Valid) {t : Tally} (h : Sound config readings t) (bps : ℕ) :
    Sound config (readings ++ [bps]) (t.feed bps) := by
  have hr := t.pacer.feed_reacts bps
  have hrep : Represented config (readings ++ [bps]) (t.feed bps).pacer :=
    h.represented.react hc hr
  unfold Tally.feed at hrep ⊢
  by_cases hzero : (t.pacer.feed bps).upgradeStreak = 0
  · rw [if_pos hzero]
    refine ⟨hrep, ?_, fun r hr => by cases hr⟩
    dsimp only
    rw [hzero]
    rfl
  · rw [if_neg hzero]
    rcases upgradeStreak_cases h.represented hr with h0 | ⟨hkeep, hlayer⟩ | ⟨hgrow, hlayer, hup⟩
    · exact absurd h0 hzero
    · rw [if_pos hkeep]
      refine ⟨hrep, ?_, fun r hr => hlayer r (h.above r hr)⟩
      dsimp only
      rw [hkeep]
      exact h.length
    · have hne : (t.pacer.feed bps).upgradeStreak ≠ t.pacer.upgradeStreak := by
        intro heq
        rw [heq] at hgrow
        omega
      rw [if_neg hne]
      refine ⟨hrep, ?_, fun r hr => ?_⟩
      · dsimp only
        rw [List.length_append, List.length_singleton, h.length, hgrow]
      · rcases List.mem_append.mp hr with hr | hr
        · exact hlayer r (h.above r hr)
        · rw [List.mem_singleton.mp hr]
          exact hlayer bps hup

/-- What every counted reading reaches, the layer of an upgrade included. -/
def Sustains (t : Tally) (bps : ℕ) : Prop :=
  ∀ l, (t.pacer.update bps).2 = .changeLayer l → rank t.pacer.currentLayer < rank l →
    ∀ r ∈ t.counted ++ [bps], t.pacer.config.minBps l ≤ r

end Tally

/-- A layer above `LOW` is asked for by the readings that reach its bitrate, and by those that
ask for more. -/
theorem minBps_le_iff (hc : p.config.Valid) {l : SfuRid} (hl : l.Known) (hpos : 0 < rank l) :
    p.config.minBps l ≤ bps ↔ rank l ≤ rank (p.layerForBps bps) := by
  have hle := hc.medium_le
  rcases hl with rfl | rfl | rfl
  · exact absurd hpos (by decide)
  · rw [PacerConfig.minBps, if_neg (by decide), if_pos rfl]
    unfold layerForBps
    split_ifs with hhigh hmedium
    · simp [rank_high, rank_medium, hle.trans hhigh]
    · simp [hmedium]
    · simp [rank_low, rank_medium, hmedium]
  · rw [PacerConfig.minBps, if_pos rfl]
    unfold layerForBps
    split_ifs with hhigh hmedium
    · simp [hhigh]
    · simp [rank_high, rank_medium, hhigh]
    · simp [rank_high, rank_low, hhigh]

theorem highMinBps_le_iff (hc : p.config.Valid) :
    p.config.highMinBps ≤ bps ↔ 2 ≤ rank (p.layerForBps bps) :=
  minBps_le_iff hc (.inr (.inr rfl)) (by decide)

theorem reacts_of_completes (hc : p.config.Valid) (hfull : p.FullVideo) (habove : p.Above bps)
    (hk : p.config.upgradeStreak.toNat ≤ p.upgradeStreak.toNat + 1)
    (hr : Reacts p bps q action) : action = .changeLayer (p.layerForBps bps) := by
  have hmedium : p.config.mediumMinBps ≤ bps := by
    by_contra hlt
    unfold Above at habove
    rw [layerForBps_low hc (not_le.mp hlt), rank_low] at habove
    omega
  have haudio := hc.audio_le.trans (hc.low_le.trans hmedium)
  have hsuspend := hc.suspend_le.trans haudio
  obtain ⟨hs, ha⟩ := hfull
  unfold Above at habove
  cases hr with
  | upgrade => rfl
  | restoreAudio hs' | staySuspended hs' => simp [hs] at hs'
  | suspendVideo _ hv | debounce _ _ hv => omega
  | restoreVideo _ _ ha' | stayAudioOnly _ _ ha' => simp [ha] at ha'
  | goAudioOnly _ _ _ hb => omega
  | downgrade _ _ _ _ hr => omega
  | countUp _ _ _ _ _ _ hk' => omega
  | keepLayer _ _ _ _ hr => omega

namespace Tally

/-- One reading: the upgrade is sustained unless it leaps. -/
theorem sustains_iff (hc : config.Valid) {t : Tally} (h : Sound config readings t) (bps : ℕ) :
    t.Sustains bps ↔ ¬ t.Leaps bps := by
  rw [← h.represented.config_eq] at hc
  have hreacts := t.pacer.feed_reacts bps
  constructor
  · rintro hsust ⟨hfull, hlow, hhigh, hk, r, hr, hlt⟩
    have habove : t.pacer.Above bps := by
      have htwo := (highMinBps_le_iff hc).mp hhigh
      unfold Above
      rw [hlow, rank_low]
      omega
    have hact := reacts_of_completes hc hfull habove hk hreacts
    have hr' := hsust _ hact habove r (List.mem_append_left _ hr)
    rw [minBps_le_iff hc (layerForBps_known _ _) (Nat.zero_lt_of_lt habove)] at hr'
    have htwo := (highMinBps_le_iff hc).mp hhigh
    have hrank := (highMinBps_le_iff hc).mpr (htwo.trans hr')
    omega
  · intro hno l hact hup r hr
    generalize t.pacer.feed bps = q at hreacts
    rw [hact] at hreacts
    have hpos := Nat.zero_lt_of_lt hup
    cases hreacts with
    | downgrade _ _ _ _ hdown => omega
    | upgrade hs hv ha hb _ hk =>
      rw [minBps_le_iff hc (layerForBps_known _ _) hpos]
      rcases List.mem_append.mp hr with hr | hr
      · have habove := h.above r hr
        unfold Above at habove
        have htarget := (layerForBps_known t.pacer bps).rank_le
        by_cases hnext : rank (t.pacer.layerForBps bps) ≤ rank t.pacer.currentLayer + 1
        · omega
        · -- Two tiers at once: only from `LOW` to `HIGH`.
          have hlow : t.pacer.currentLayer = .low :=
            h.represented.layer.eq_of_rank (.inl rfl) (by rw [rank_low]; omega)
          have hhigh : t.pacer.config.highMinBps ≤ bps := (highMinBps_le_iff hc).mpr (by omega)
          have hge : t.pacer.config.highMinBps ≤ r := by
            by_contra hlt
            exact hno ⟨⟨hs, ha⟩, hlow, hhigh, hk, r, hr, not_le.mp hlt⟩
          exact htarget.trans ((highMinBps_le_iff hc).mp hge)
      · rw [List.mem_singleton.mp hr]

/-- Over any readings fed to a fresh pacer: every upgrade goes to a layer whose minimum every
counted reading reaches, exactly when no reading at `HIGH` completes at `LOW` a streak that has
counted a lower one. -/
theorem upgrade_sustained_iff (config : PacerConfig) (p₀ : SubscriberPacer)
    (h : tryWithConfig config = .ok p₀) (readings : List ℕ) :
    (∀ pre bps, pre ++ [bps] <+: readings → (Run.run feed ⟨p₀, []⟩ pre).Sustains bps) ↔
      Run.Along feed (fun t bps => ¬ t.Leaps bps) ⟨p₀, []⟩ readings := by
  obtain ⟨hc, rfl⟩ := (tryWithConfig_eq_ok_iff config p₀).mp h
  have hstep : ∀ l t bps, Sound config l t → Sound config (l ++ [bps]) (feed t bps) :=
    fun _ _ bps h => h.feed hc bps
  have hsound : ∀ pre, Sound config pre (Run.run feed ⟨fresh config, []⟩ pre) :=
    Run.history_invariant_all hstep ⟨represented_fresh hc, rfl, fun r hr => by cases hr⟩
  rw [Run.along_iff_prefix]
  constructor
  · exact fun hall pre bps hpre => (sustains_iff hc (hsound pre) bps).mp (hall pre bps hpre)
  · exact fun hall pre bps hpre => (sustains_iff hc (hsound pre) bps).mpr (hall pre bps hpre)

/-- Two readings at `MEDIUM` and a spike take a default pacer to `HIGH`. -/
theorem upgrade_sustained_fails :
    ¬ (Run.run feed ⟨fresh .default, []⟩ [400000, 400000]).Sustains 800000 := by
  intro h
  exact absurd (h .high (by decide) (by decide) 400000 (by decide)) (by decide)

theorem upgrade_sustained_iff_default :
    (Run.run feed ⟨fresh .default, []⟩ [800000, 400000]).Sustains 400000 :=
  (upgrade_sustained_iff .default (fresh .default) tryWithConfig_default
    [800000, 400000, 400000]).mpr (by decide) [800000, 400000] 400000 List.prefix_rfl

end Tally

end SfuKit.SubscriberPacer
