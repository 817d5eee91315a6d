import SfuKit.Pacer.LayerLadder

/-! # Rest under a constant reading

Every reading has, from every reachable state, one service it drives the pacer to. A state in that
service answers `NoChange`; any other comes closer with every call.
-/
namespace SfuKit.SubscriberPacer

open Library

inductive Service where
  | suspended
  | audioOnly
  | video (layer : SfuRid)
deriving DecidableEq, Repr

def service (p : SubscriberPacer) : Service :=
  if p.suspended then .suspended else if p.audioOnly then .audioOnly else .video p.currentLayer

/-- The service a reading drives the pacer to; between the thresholds it depends on where the
pacer comes from. -/
def resting (p : SubscriberPacer) (bps : ℕ) : Service :=
  if bps < p.config.suspendVideoBps then .suspended
  else if bps < p.config.audioOnlyBps then if p.suspended then .suspended else .audioOnly
  else if bps < p.config.lowMinBps ∧ (p.suspended = true ∨ p.audioOnly = true) then .audioOnly
  else .video (p.layerForBps bps)

/-- How many calls with the reading are still to come before the pacer rests. -/
def unrest (p : SubscriberPacer) (bps : ℕ) : ℕ :=
  if p.service = p.resting bps then 0
  else if p.suspended then p.config.upgradeStreak.toNat + 2
  else if bps < p.config.suspendVideoBps then p.config.suspendStreak.toNat - p.suspendStreak.toNat
  else if p.audioOnly then p.config.upgradeStreak.toNat + 1
  else p.config.upgradeStreak.toNat - p.upgradeStreak.toNat

variable {config : PacerConfig} {readings : List ℕ} {p q : SubscriberPacer} {bps : ℕ}
  {action : PacerAction}

theorem resting_react (hc : p.config.Valid) (hr : Reacts p bps q action) :
    q.resting bps = p.resting bps := by
  have hsuspend := hc.suspend_le
  have haudio := hc.audio_le
  cases hr with
  | restoreAudio hs hb =>
    simp [resting, hs, layerForBps, not_lt.mpr hb, not_lt.mpr (hsuspend.trans hb)]
  | staySuspended => rfl
  | suspendVideo hs hv => simp [resting, hv]
  | debounce s hs hv => simp [resting, hv]
  | restoreVideo hs hv ha hb =>
    simp [resting, hs, ha, layerForBps, not_lt.mpr hb, not_lt.mpr hv, not_lt.mpr (haudio.trans hb)]
  | stayAudioOnly => rfl
  | goAudioOnly hs hv ha hb => simp [resting, hs, hb, not_lt.mpr hv]
  | downgrade | upgrade | countUp | keepLayer => rfl

theorem resting_of_low (hv : bps < p.config.suspendVideoBps) : p.resting bps = .suspended := by
  rw [resting, if_pos hv]

theorem service_eq_suspended_iff : p.service = .suspended ↔ p.suspended = true := by
  unfold service
  split_ifs <;> simp_all

theorem resting_of_video (hc : p.config.Valid) (hfull : p.FullVideo)
    (hb : p.config.audioOnlyBps ≤ bps) : p.resting bps = .video (p.layerForBps bps) := by
  obtain ⟨hs, ha⟩ := hfull
  simp [resting, hs, ha, not_lt.mpr hb, not_lt.mpr (hc.suspend_le.trans hb)]

theorem service_of_fullVideo (hfull : p.FullVideo) : p.service = .video p.currentLayer := by
  obtain ⟨hs, ha⟩ := hfull
  simp [service, hs, ha]

theorem noChange_of_rest (hc : p.config.Valid) (hrest : p.service = p.resting bps)
    (hr : Reacts p bps q action) : action = .noChange ∧ q.service = p.service := by
  have hsuspend := hc.suspend_le
  have haudio := hc.audio_le
  have hlayer : p.suspended = false → p.audioOnly = false → p.config.audioOnlyBps ≤ bps →
      p.currentLayer = p.layerForBps bps := by
    intro hs ha hb
    rw [resting_of_video hc ⟨hs, ha⟩ hb, service_of_fullVideo ⟨hs, ha⟩] at hrest
    exact Service.video.inj hrest
  cases hr with
  | staySuspended | stayAudioOnly | keepLayer => exact ⟨rfl, rfl⟩
  | restoreAudio hs hb =>
    have hv := hsuspend.trans hb
    simp only [service, resting, hs, if_true, if_neg (not_lt.mpr hb), if_neg (not_lt.mpr hv)] at hrest
    split_ifs at hrest
  | suspendVideo hs hv | debounce s hs hv =>
    rw [resting_of_low hv, service_eq_suspended_iff, hs] at hrest
    cases hrest
  | restoreVideo hs hv ha hb =>
    have hb' := haudio.trans hb
    simp [service, resting, hs, ha, not_lt.mpr hb, not_lt.mpr hv, not_lt.mpr hb'] at hrest
  | goAudioOnly hs hv ha hb => simp [service, resting, hs, ha, hb, not_lt.mpr hv] at hrest
  | downgrade hs hv ha hb hr | upgrade hs hv ha hb hr | countUp s hs hv ha hb hr =>
    rw [hlayer hs ha hb] at hr
    exact absurd hr (lt_irrefl _)

theorem unrest_lt (hc : config.Valid) (h : Represented config readings p)
    (hrest : p.service ≠ p.resting bps) (hr : Reacts p bps q action) :
    q.unrest bps < p.unrest bps := by
  obtain rfl := h.config_eq
  have hq := resting_react hc hr
  have hsuspend := hc.suspend_le
  have haudio := hc.audio_le
  have hup := h.upgrade_lt
  have hsus := h.suspend_lt
  unfold unrest
  rw [hq, if_neg hrest]
  cases hr with
  | restoreAudio hs hb =>
    have hv := not_lt.mpr (hsuspend.trans hb)
    simp [hs, hv]
    split_ifs <;> omega
  | staySuspended hs hb => simp [service, resting, hs, hb] at hrest
  | suspendVideo hs hv hk =>
    simp [service, resting_of_low hv, hs, hv]
    omega
  | debounce s hs hv hk hn =>
    simp [hs, hv]
    split_ifs <;> omega
  | restoreVideo hs hv ha hb =>
    simp [hs, ha, not_lt.mpr hv]
    split_ifs <;> omega
  | stayAudioOnly hs hv ha hb => simp [service, resting, hs, ha, hb, not_lt.mpr hv] at hrest
  | goAudioOnly hs hv ha hb =>
    simp [service, resting, hs, ha, hb, not_lt.mpr hv]
    omega
  | downgrade hs hv ha hb | upgrade hs hv ha hb =>
    simp [service, resting_of_video hc ⟨hs, ha⟩ hb, hs, ha, not_lt.mpr hv]
    omega
  | countUp s hs hv ha hb hr hk hn =>
    simp [hs, ha, not_lt.mpr hv]
    split_ifs <;> omega
  | keepLayer hs hv ha hb hr =>
    have hlayer := h.layer.eq_of_rank (layerForBps_known p bps) hr.symm
    rw [resting_of_video hc ⟨hs, ha⟩ hb, service_of_fullVideo ⟨hs, ha⟩, hlayer] at hrest
    exact absurd rfl hrest

theorem unrest_le (p : SubscriberPacer) (bps : ℕ) :
    p.unrest bps ≤ max p.config.suspendStreak.toNat (p.config.upgradeStreak.toNat + 2) := by
  unfold unrest
  split_ifs <;> omega

/-- The service a reading drives a pacer to, by the one it finds. -/
theorem resting_eq (hc : p.config.Valid) (bps : ℕ) :
    (bps < p.config.suspendVideoBps → p.resting bps = .suspended) ∧
    (p.config.suspendVideoBps ≤ bps → bps < p.config.audioOnlyBps →
      p.resting bps = if p.service = .suspended then .suspended else .audioOnly) ∧
    (p.config.audioOnlyBps ≤ bps → bps < p.config.lowMinBps → p.resting bps =
      if p.service = .audioOnly ∨ p.service = .suspended then .audioOnly else .video .low) ∧
    (p.config.lowMinBps ≤ bps → p.resting bps = .video (p.layerForBps bps)) := by
  have hsuspend := hc.suspend_le
  have haudio := hc.audio_le
  refine ⟨resting_of_low, fun hv hb => ?_, fun hb hl => ?_, fun hl => ?_⟩
  · simp only [resting, if_neg (not_lt.mpr hv), if_pos hb, service_eq_suspended_iff]
  · have hv := hsuspend.trans hb
    have hlow := layerForBps_low hc (hl.trans_le hc.low_le)
    cases hs : p.suspended <;> cases ha : p.audioOnly <;>
      simp [resting, service, hs, ha, hl, hlow, not_lt.mpr hb, not_lt.mpr hv]
  · have hb := haudio.trans hl
    simp [resting, not_lt.mpr hl, not_lt.mpr hb, not_lt.mpr (hsuspend.trans hb)]

/-- A reachable pacer that the reading drives to this service. -/
structure HeadsFor (config : PacerConfig) (bps : ℕ) (m : Service) (p : SubscriberPacer) : Prop where
  valid : config.Valid
  represented : ∃ readings, Represented config readings p
  resting_eq : p.resting bps = m

namespace HeadsFor
variable {m : Service}

theorem config_valid (h : HeadsFor config bps m p) : p.config.Valid := by
  obtain ⟨l, hl⟩ := h.represented
  rw [hl.config_eq]
  exact h.valid

theorem feed (h : HeadsFor config bps m p) : HeadsFor config bps m (p.feed bps) := by
  obtain ⟨l, hl⟩ := h.represented
  have hr := p.feed_reacts bps
  exact ⟨h.valid, ⟨l ++ [bps], hl.react h.valid hr⟩,
    (resting_react h.config_valid hr).trans h.resting_eq⟩

theorem noChange (h : HeadsFor config bps m p) (hm : p.service = m) :
    (p.update bps).2 = .noChange ∧ (p.feed bps).service = m := by
  rw [← h.resting_eq] at hm ⊢
  rw [← hm]
  exact noChange_of_rest h.config_valid hm (p.feed_reacts bps)

theorem unrest_lt (h : HeadsFor config bps m p) (hm : p.service ≠ m) :
    (p.feed bps).unrest bps < p.unrest bps := by
  obtain ⟨l, hl⟩ := h.represented
  rw [← h.resting_eq] at hm
  exact SubscriberPacer.unrest_lt h.valid hl hm (p.feed_reacts bps)

theorem run_replicate (h : HeadsFor config bps m p) {n : ℕ} (hn : p.unrest bps ≤ n) :
    HeadsFor config bps m (Run.run SubscriberPacer.feed p (List.replicate n bps)) ∧
      (Run.run SubscriberPacer.feed p (List.replicate n bps)).service = m := by
  have hinv : ∀ s, HeadsFor config bps m s → HeadsFor config bps m (s.feed bps) :=
    fun s hs => hs.feed
  have hkeep : ∀ s, HeadsFor config bps m s → s.service = m → (s.feed bps).service = m :=
    fun s hs hm => (hs.noChange hm).2
  let measure : SubscriberPacer → ℕ := fun s => s.unrest bps
  have hfall : ∀ s, HeadsFor config bps m s → ¬ s.service = m →
      measure (s.feed bps) < measure s := fun s hs hm => hs.unrest_lt hm
  refine ⟨?_, Run.settles hinv hkeep hfall h hn⟩
  have hstep : ∀ s i, HeadsFor config bps m s → i = bps →
      HeadsFor config bps m (SubscriberPacer.feed s i) := by
    rintro s i hs rfl
    exact hs.feed
  exact Run.invariant hstep h (Run.along_of_forall (fun i hi => List.eq_of_mem_replicate hi) _)

end HeadsFor

/-- From every reachable state, a bitrate repeated for `suspend_streak` calls, or for two more
than `upgrade_streak` if that is more, takes the pacer to a service in which it rests. -/
theorem converges (config : PacerConfig) (p₀ : SubscriberPacer)
    (h : tryWithConfig config = .ok p₀) (readings : List ℕ) (bps n : ℕ)
    (hn : max config.suspendStreak.toNat (config.upgradeStreak.toNat + 2) ≤ n) :
    let p := Run.run feed p₀ readings
    let q := Run.run feed p (List.replicate n bps)
    (q.update bps).2 = .noChange ∧
    (bps < config.suspendVideoBps → q.service = .suspended) ∧
    (config.suspendVideoBps ≤ bps → bps < config.audioOnlyBps →
      q.service = if p.service = .suspended then .suspended else .audioOnly) ∧
    (config.audioOnlyBps ≤ bps → bps < config.lowMinBps →
      q.service = if p.service = .audioOnly ∨ p.service = .suspended then .audioOnly else .video .low) ∧
    (config.lowMinBps ≤ bps → q.service = .video (p.layerForBps bps)) := by
  obtain ⟨hc, rfl⟩ := (tryWithConfig_eq_ok_iff config p₀).mp h
  intro p q
  have hp : Represented config readings p := represented_run hc readings
  have hheads : HeadsFor config bps (p.resting bps) p := ⟨hc, ⟨readings, hp⟩, rfl⟩
  have hconf := hp.config_eq
  have hbound : p.unrest bps ≤ n := (unrest_le p bps).trans (by rw [hconf]; exact hn)
  obtain ⟨hq, hservice⟩ := hheads.run_replicate hbound
  refine ⟨(hq.noChange hservice).1, ?_⟩
  rw [hservice, ← hconf]
  exact resting_eq hheads.config_valid bps

/-- From suspension a default pacer is on `HIGH` after five calls, and stays there. -/
theorem converges_default :
    (Run.run feed (Run.run feed (fresh .default) [5000, 5000]) (List.replicate 5 900000)).service =
      .video ((Run.run feed (fresh .default) [5000, 5000]).layerForBps 900000) :=
  (converges .default (fresh .default) tryWithConfig_default [5000, 5000] 900000 5
    (by decide)).2.2.2.2 (by decide)

end SfuKit.SubscriberPacer
