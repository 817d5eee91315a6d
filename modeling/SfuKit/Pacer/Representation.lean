import SfuKit.Library.Run
import SfuKit.Model.Pacer

/-! # The reachable states of a pacer

`Reacts` has one rule for each exit of `update`, with its guard in plain numbers. What
the flags, the layer and the two streaks of a pacer can be together is read off the rules
once; every other fact about runs of readings is derived from the rules and from this.
-/
namespace SfuKit

open Library

theorem u8_toNat_le (s : UInt8) : s.toNat ≤ 255 := Nat.le_of_lt_succ s.toNat_lt

theorem le_u8SaturatingSucc_iff (s t : UInt8) :
    t ≤ u8SaturatingSucc s ↔ t.toNat ≤ s.toNat + 1 := by
  rw [UInt8.le_iff_toNat_le, u8SaturatingSucc_toNat]
  have ht := u8_toNat_le t
  omega

theorem u8SaturatingSucc_of_lt {s t : UInt8} (h : s.toNat + 1 < t.toNat) :
    (u8SaturatingSucc s).toNat = s.toNat + 1 := by
  rw [u8SaturatingSucc_toNat]
  have ht := u8_toNat_le t
  omega

theorem PacerConfig.Valid.suspendStreak_pos {config : PacerConfig} (hc : config.Valid) :
    0 < config.suspendStreak.toNat :=
  Nat.pos_of_ne_zero fun h => hc.suspend_ne (UInt8.toNat_inj.mp h)

theorem PacerConfig.Valid.upgradeStreak_pos {config : PacerConfig} (hc : config.Valid) :
    0 < config.upgradeStreak.toNat :=
  Nat.pos_of_ne_zero fun h => hc.upgrade_ne (UInt8.toNat_inj.mp h)

def PacerConfig.minBps (config : PacerConfig) (r : SfuRid) : ℕ :=
  if r = .high then config.highMinBps
  else if r = .medium then config.mediumMinBps
  else config.lowMinBps

theorem rank_low : rank .low = 0 := rfl
theorem rank_medium : rank .medium = 1 := rfl
theorem rank_high : rank .high = 2 := rfl

def SfuRid.Known (r : SfuRid) : Prop := r = .low ∨ r = .medium ∨ r = .high

theorem SfuRid.Known.rank_le {r : SfuRid} (h : r.Known) : rank r ≤ 2 := by
  rcases h with rfl | rfl | rfl <;> decide

theorem SfuRid.Known.eq_of_rank {r s : SfuRid} (hr : r.Known) (hs : s.Known)
    (h : rank r = rank s) : r = s := by
  rcases hr with rfl | rfl | rfl <;> rcases hs with rfl | rfl | rfl <;> first | rfl | cases h

namespace SubscriberPacer

def feed (p : SubscriberPacer) (bps : ℕ) : SubscriberPacer := (p.update bps).1

/-- Neither audio-only nor suspended. -/
def FullVideo (p : SubscriberPacer) : Prop := p.suspended = false ∧ p.audioOnly = false

instance (p : SubscriberPacer) : Decidable p.FullVideo :=
  inferInstanceAs (Decidable (p.suspended = false ∧ p.audioOnly = false))

def Above (p : SubscriberPacer) (bps : ℕ) : Prop := rank p.currentLayer < rank (p.layerForBps bps)

instance (p : SubscriberPacer) (bps : ℕ) : Decidable (p.Above bps) :=
  inferInstanceAs (Decidable (rank p.currentLayer < rank (p.layerForBps bps)))

theorem layerForBps_known (p : SubscriberPacer) (bps : ℕ) : (p.layerForBps bps).Known := by
  unfold layerForBps
  split_ifs
  · exact .inr (.inr rfl)
  · exact .inr (.inl rfl)
  · exact .inl rfl

theorem layerForBps_low {p : SubscriberPacer} {bps : ℕ} (hc : p.config.Valid)
    (h : bps < p.config.mediumMinBps) : p.layerForBps bps = .low := by
  have hle := hc.medium_le
  rw [layerForBps, if_neg (by omega), if_neg (by omega)]

/-- What a reading can do to a pacer. -/
inductive Reacts (p : SubscriberPacer) (bps : ℕ) : SubscriberPacer → PacerAction → Prop
  | restoreAudio (hs : p.suspended = true) (hb : p.config.audioOnlyBps ≤ bps) :
      Reacts p bps { p with suspended := false, audioOnly := true, upgradeStreak := 0,
                            suspendStreak := 0 } .restoreAudio
  | staySuspended (hs : p.suspended = true) (hb : bps < p.config.audioOnlyBps) :
      Reacts p bps p .noChange
  | suspendVideo (hs : p.suspended = false) (hv : bps < p.config.suspendVideoBps)
      (hk : p.config.suspendStreak.toNat ≤ p.suspendStreak.toNat + 1) :
      Reacts p bps { p with suspended := true, audioOnly := true, upgradeStreak := 0,
                            suspendStreak := 0 } .suspendVideo
  | debounce (s : UInt8) (hs : p.suspended = false) (hv : bps < p.config.suspendVideoBps)
      (hk : p.suspendStreak.toNat + 1 < p.config.suspendStreak.toNat)
      (hn : s.toNat = p.suspendStreak.toNat + 1) :
      Reacts p bps { p with suspendStreak := s } .noChange
  | restoreVideo (hs : p.suspended = false) (hv : p.config.suspendVideoBps ≤ bps)
      (ha : p.audioOnly = true) (hb : p.config.lowMinBps ≤ bps) :
      Reacts p bps { p with suspendStreak := 0, audioOnly := false, currentLayer := .low,
                            upgradeStreak := 0 } .restoreVideo
  | stayAudioOnly (hs : p.suspended = false) (hv : p.config.suspendVideoBps ≤ bps)
      (ha : p.audioOnly = true) (hb : bps < p.config.lowMinBps) :
      Reacts p bps { p with suspendStreak := 0 } .noChange
  | goAudioOnly (hs : p.suspended = false) (hv : p.config.suspendVideoBps ≤ bps)
      (ha : p.audioOnly = false) (hb : bps < p.config.audioOnlyBps) :
      Reacts p bps { p with suspendStreak := 0, audioOnly := true, upgradeStreak := 0 }
        .goAudioOnly
  | downgrade (hs : p.suspended = false) (hv : p.config.suspendVideoBps ≤ bps)
      (ha : p.audioOnly = false) (hb : p.config.audioOnlyBps ≤ bps)
      (hr : rank (p.layerForBps bps) < rank p.currentLayer) :
      Reacts p bps { p with suspendStreak := 0, currentLayer := p.layerForBps bps,
                            upgradeStreak := 0 } (.changeLayer (p.layerForBps bps))
  | upgrade (hs : p.suspended = false) (hv : p.config.suspendVideoBps ≤ bps)
      (ha : p.audioOnly = false) (hb : p.config.audioOnlyBps ≤ bps)
      (hr : rank p.currentLayer < rank (p.layerForBps bps))
      (hk : p.config.upgradeStreak.toNat ≤ p.upgradeStreak.toNat + 1) :
      Reacts p bps { p with suspendStreak := 0, currentLayer := p.layerForBps bps,
                            upgradeStreak := 0 } (.changeLayer (p.layerForBps bps))
  | countUp (s : UInt8) (hs : p.suspended = false) (hv : p.config.suspendVideoBps ≤ bps)
      (ha : p.audioOnly = false) (hb : p.config.audioOnlyBps ≤ bps)
      (hr : rank p.currentLayer < rank (p.layerForBps bps))
      (hk : p.upgradeStreak.toNat + 1 < p.config.upgradeStreak.toNat)
      (hn : s.toNat = p.upgradeStreak.toNat + 1) :
      Reacts p bps { p with suspendStreak := 0, upgradeStreak := s } .noChange
  | keepLayer (hs : p.suspended = false) (hv : p.config.suspendVideoBps ≤ bps)
      (ha : p.audioOnly = false) (hb : p.config.audioOnlyBps ≤ bps)
      (hr : rank (p.layerForBps bps) = rank p.currentLayer) :
      Reacts p bps { p with suspendStreak := 0, upgradeStreak := 0 } .noChange

theorem updateLayer_reacts {p : SubscriberPacer} {bps : ℕ} (hs : p.suspended = false)
    (hv : p.config.suspendVideoBps ≤ bps) (ha : p.audioOnly = false)
    (hb : p.config.audioOnlyBps ≤ bps) {q : SubscriberPacer} {action : PacerAction}
    (h : ({ p with suspendStreak := 0 } : SubscriberPacer).updateLayer bps = (q, action)) :
    Reacts p bps q action := by
  have htarget : ({ p with suspendStreak := 0 } : SubscriberPacer).layerForBps bps =
      p.layerForBps bps := rfl
  unfold updateLayer at h
  dsimp only at h
  rw [htarget] at h
  split_ifs at h with hd hu hk
  · obtain ⟨rfl, rfl⟩ := Prod.mk.inj h
    exact .downgrade hs hv ha hb hd
  · obtain ⟨rfl, rfl⟩ := Prod.mk.inj h
    exact .upgrade hs hv ha hb hu ((le_u8SaturatingSucc_iff _ _).mp hk)
  · obtain ⟨rfl, rfl⟩ := Prod.mk.inj h
    have hlt : p.upgradeStreak.toNat + 1 < p.config.upgradeStreak.toNat :=
      not_le.mp fun hle => hk ((le_u8SaturatingSucc_iff _ _).mpr hle)
    exact .countUp _ hs hv ha hb hu hlt (u8SaturatingSucc_of_lt hlt)
  · obtain ⟨rfl, rfl⟩ := Prod.mk.inj h
    exact .keepLayer hs hv ha hb (le_antisymm (not_lt.mp hu) (not_lt.mp hd))

theorem update_reacts {p q : SubscriberPacer} {bps : ℕ} {action : PacerAction}
    (h : p.update bps = (q, action)) : Reacts p bps q action := by
  rcases update_cases p bps with ⟨hs, hb, hu⟩ | ⟨hs, hb, hu⟩ | ⟨hs, hv, hk, hu⟩ |
    ⟨hs, hv, hk, hu⟩ | ⟨hs, hv, ha, hb, hu⟩ | ⟨hs, hv, ha, hb, hu⟩ | ⟨hs, hv, ha, hb, hu⟩ |
    ⟨hs, hv, ha, hb, hu⟩
  all_goals rw [hu] at h
  · obtain ⟨rfl, rfl⟩ := Prod.mk.inj h
    exact .restoreAudio hs hb
  · obtain ⟨rfl, rfl⟩ := Prod.mk.inj h
    exact .staySuspended hs hb
  · obtain ⟨rfl, rfl⟩ := Prod.mk.inj h
    exact .suspendVideo hs hv ((le_u8SaturatingSucc_iff _ _).mp hk)
  · obtain ⟨rfl, rfl⟩ := Prod.mk.inj h
    have hlt : p.suspendStreak.toNat + 1 < p.config.suspendStreak.toNat :=
      not_le.mp fun hle => hk ((le_u8SaturatingSucc_iff _ _).mpr hle)
    exact .debounce _ hs hv hlt (u8SaturatingSucc_of_lt hlt)
  · obtain ⟨rfl, rfl⟩ := Prod.mk.inj h
    exact .restoreVideo hs hv ha hb
  · obtain ⟨rfl, rfl⟩ := Prod.mk.inj h
    exact .stayAudioOnly hs hv ha hb
  · obtain ⟨rfl, rfl⟩ := Prod.mk.inj h
    exact .goAudioOnly hs hv ha hb
  · exact updateLayer_reacts hs hv ha hb h

/-- A reading, as the rule it takes. -/
theorem feed_reacts (p : SubscriberPacer) (bps : ℕ) : Reacts p bps (p.feed bps) (p.update bps).2 :=
  update_reacts rfl

@[simp] theorem feed_config (p : SubscriberPacer) (bps : ℕ) : (p.feed bps).config = p.config :=
  update_config p bps

/-- What a pacer of this configuration can look like after these readings. -/
structure Represented (config : PacerConfig) (readings : List ℕ) (p : SubscriberPacer) : Prop where
  config_eq : p.config = config
  layer : p.currentLayer.Known
  suspended : p.suspended = true → p.audioOnly = true ∧ p.upgradeStreak = 0 ∧ p.suspendStreak = 0
  audioOnly : p.audioOnly = true → p.upgradeStreak = 0
  upgrade_lt : p.upgradeStreak.toNat < config.upgradeStreak.toNat
  suspend_lt : p.suspendStreak.toNat < config.suspendStreak.toNat
  low : 0 < p.suspendStreak → ∃ r ∈ readings.getLast?, r < config.suspendVideoBps
  room : 0 < p.upgradeStreak → p.currentLayer ≠ .high

variable {config : PacerConfig} {readings : List ℕ} {p q : SubscriberPacer} {bps : ℕ}
  {action : PacerAction}

/-- With both streaks cleared only the flags and the layer are left to check. -/
theorem represented_of_cleared (hc : config.Valid) (hconf : p.config = config)
    (hlayer : p.currentLayer.Known) (hsusp : p.suspended = true → p.audioOnly = true)
    (hu : p.upgradeStreak = 0) (hs : p.suspendStreak = 0) : Represented config readings p where
  config_eq := hconf
  layer := hlayer
  suspended h := ⟨hsusp h, hu, hs⟩
  audioOnly _ := hu
  upgrade_lt := by
    rw [hu]
    exact hc.upgradeStreak_pos
  suspend_lt := by
    rw [hs]
    exact hc.suspendStreak_pos
  low h := by
    rw [hs] at h
    exact absurd h (by decide)
  room h := by
    rw [hu] at h
    exact absurd h (by decide)

theorem represented_fresh (hc : config.Valid) : Represented config [] (fresh config) :=
  represented_of_cleared hc rfl (.inl rfl) (fun h => by cases h) rfl rfl

theorem Represented.react (hc : config.Valid) (h : Represented config readings p)
    (hr : Reacts p bps q action) : Represented config (readings ++ [bps]) q := by
  have hconf := h.config_eq
  cases hr with
  | restoreAudio => exact represented_of_cleared hc hconf h.layer (fun _ => rfl) rfl rfl
  | staySuspended hs =>
    obtain ⟨ha, hu, hz⟩ := h.suspended hs
    exact represented_of_cleared hc hconf h.layer (fun _ => ha) hu hz
  | suspendVideo => exact represented_of_cleared hc hconf h.layer (fun _ => rfl) rfl rfl
  | debounce s hs hv hk hn =>
    -- The only exit that leaves the upgrade streak and bumps the other.
    refine ⟨hconf, h.layer, fun hs' => ?_, h.audioOnly, h.upgrade_lt, ?_, fun _ => ?_, h.room⟩
    · dsimp only at hs'
      rw [hs] at hs'
      cases hs'
    · dsimp only
      rw [hconf] at hk
      omega
    · rw [hconf] at hv
      exact ⟨bps, by simp, hv⟩
  | restoreVideo hs =>
    refine represented_of_cleared hc hconf (.inl rfl) (fun hs' => ?_) rfl rfl
    dsimp only at hs'
    rw [hs] at hs'
    cases hs'
  | stayAudioOnly hs hv ha =>
    exact represented_of_cleared hc hconf h.layer (fun _ => ha) (h.audioOnly ha) rfl
  | goAudioOnly => exact represented_of_cleared hc hconf h.layer (fun _ => rfl) rfl rfl
  | downgrade =>
    exact represented_of_cleared hc hconf (layerForBps_known p bps)
      (fun hs' => (h.suspended hs').1) rfl rfl
  | upgrade =>
    exact represented_of_cleared hc hconf (layerForBps_known p bps)
      (fun hs' => (h.suspended hs').1) rfl rfl
  | countUp s hs hv ha hb hr hk hn =>
    refine ⟨hconf, h.layer, fun hs' => ?_, fun ha' => ?_, ?_,
      Nat.zero_lt_of_lt h.suspend_lt, fun hz => ?_, fun _ htop => ?_⟩
    · dsimp only at hs'
      rw [hs] at hs'
      cases hs'
    · dsimp only at ha'
      rw [ha] at ha'
      cases ha'
    · dsimp only
      rw [hconf] at hk
      omega
    · exact absurd hz (lt_irrefl 0)
    · -- A reading counts only below the layer it asks for.
      dsimp only at htop
      rw [htop, rank_high] at hr
      have hle := (layerForBps_known p bps).rank_le
      omega
  | keepLayer =>
    exact represented_of_cleared hc hconf h.layer (fun hs' => (h.suspended hs').1) rfl rfl

theorem represented_run (hc : config.Valid) (readings : List ℕ) :
    Represented config readings (Run.run feed (fresh config) readings) := by
  have hstep : ∀ l p bps, Represented config l p → Represented config (l ++ [bps]) (feed p bps) :=
    fun _ p bps h => h.react hc (feed_reacts p bps)
  exact Run.history_invariant_all hstep (represented_fresh hc) readings

/-- In every state that a pacer accepted by `try_with_config` reaches, the layer has a rank and so
has every layer it may be compared with, the flags and the streaks fit together, and neither
saturating increment saturates. -/
theorem reachable_represented (config : PacerConfig) (p₀ : SubscriberPacer)
    (h : tryWithConfig config = .ok p₀) (readings : List ℕ) :
    let p := Run.run feed p₀ readings
    (p.currentLayer = .low ∨ p.currentLayer = .medium ∨ p.currentLayer = .high) ∧
    (rank p.currentLayer ≤ 2 ∧ ∀ bps, rank (p.layerForBps bps) ≤ 2) ∧
    (p.suspended = true → p.audioOnly = true ∧ p.upgradeStreak = 0 ∧ p.suspendStreak = 0) ∧
    (p.audioOnly = true → p.upgradeStreak = 0) ∧
    (p.upgradeStreak < config.upgradeStreak ∧
      (u8SaturatingSucc p.upgradeStreak).toNat = p.upgradeStreak.toNat + 1) ∧
    (p.suspendStreak < config.suspendStreak ∧
      (u8SaturatingSucc p.suspendStreak).toNat = p.suspendStreak.toNat + 1) ∧
    (0 < p.suspendStreak → ∃ r ∈ readings.getLast?, r < config.suspendVideoBps) ∧
    (0 < p.upgradeStreak → p.currentLayer ≠ .high) := by
  obtain ⟨hc, rfl⟩ := (tryWithConfig_eq_ok_iff config p₀).mp h
  intro p
  have hp : Represented config readings p := represented_run hc readings
  have hsucc : ∀ s t : UInt8, s.toNat < t.toNat →
      (u8SaturatingSucc s).toNat = s.toNat + 1 := by
    intro s t hst
    rw [u8SaturatingSucc_toNat]
    have ht := u8_toNat_le t
    omega
  exact ⟨hp.layer, ⟨hp.layer.rank_le, fun bps => (layerForBps_known p bps).rank_le⟩,
    hp.suspended, hp.audioOnly,
    ⟨UInt8.lt_iff_toNat_lt.mpr hp.upgrade_lt, hsucc _ _ hp.upgrade_lt⟩,
    ⟨UInt8.lt_iff_toNat_lt.mpr hp.suspend_lt, hsucc _ _ hp.suspend_lt⟩, hp.low, hp.room⟩

/-- A default pacer that is counting for both streaks at once. -/
theorem reachable_represented_default :
    let p := Run.run feed (fresh .default) [400000, 400000, 5000]
    (u8SaturatingSucc p.upgradeStreak).toNat = p.upgradeStreak.toNat + 1 ∧
      ∃ r ∈ [400000, 400000, 5000].getLast?, r < PacerConfig.default.suspendVideoBps := by
  intro p
  have hp := reachable_represented .default (fresh .default) tryWithConfig_default
    [400000, 400000, 5000]
  exact ⟨hp.2.2.2.2.1.2, hp.2.2.2.2.2.2.1 (by decide)⟩

end SubscriberPacer
end SfuKit
