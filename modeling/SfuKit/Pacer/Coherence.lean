import SfuKit.Library.Run
import SfuKit.Model.ClientFrame

/-! # Pacer and forwarder coherence

The layer lives twice: in the pacer as `current_layer`, in the client as
`desired_layer`. A `ChangeLayer` action copies it over; `RestoreVideo` sets the
pacer's copy to `LOW` and leaves the client's alone.
-/
namespace SfuKit.Client

open Library

/-- `drive_pacer`, whose action the caller drops. -/
def drive (c : Client) (bps : ℕ) : Client := (c.drivePacer bps).1

/-- In full-video mode the client forwards the layer the pacer is on. -/
def Coherent (c : Client) : Prop :=
  c.pacer.audioOnly = false → c.desiredLayer = c.pacer.currentLayer

/-- The reading lifts the pacer from audio-only back to full video. -/
def RestoresVideo (c : Client) (bps : ℕ) : Prop :=
  c.pacer.suspended = false ∧ c.pacer.audioOnly = true ∧ c.pacer.config.lowMinBps ≤ bps ∧
    c.pacer.config.suspendVideoBps ≤ bps

instance (c : Client) : Decidable c.Coherent :=
  inferInstanceAs (Decidable (c.pacer.audioOnly = false → c.desiredLayer = c.pacer.currentLayer))

@[simp] theorem drive_pacer (c : Client) (bps : ℕ) :
    (c.drive bps).pacer = (c.pacer.update bps).1 := by
  obtain ⟨_, _, h⟩ := c.drivePacer_eq bps
  rw [drive, h]

theorem drive_desiredLayer (c : Client) (bps : ℕ) :
    (c.drive bps).desiredLayer =
      match (c.pacer.update bps).2 with
      | .changeLayer rid => rid
      | _ => c.desiredLayer := by
  unfold drive drivePacer
  obtain ⟨pacer, action⟩ := c.pacer.update bps
  cases action <;> rfl

/-- A reading keeps the two copies together, unless it restores video while the client
is not on `LOW`. -/
theorem coherent_drive_iff (c : Client) (bps : ℕ) (h : c.Coherent) :
    (c.drive bps).Coherent ↔ (c.RestoresVideo bps → c.desiredLayer = .low) := by
  unfold Coherent at h ⊢
  rw [drive_pacer, drive_desiredLayer]
  rcases c.pacer.update_cases bps with ⟨hs, -, hu⟩ | ⟨hs, -, hu⟩ | ⟨hs, hv, -, hu⟩ |
    ⟨hs, hv, -, hu⟩ | ⟨hs, hv, ha, hb, hu⟩ | ⟨hs, hv, ha, hb, hu⟩ | ⟨hs, hv, ha, hb, hu⟩ |
    ⟨hs, hv, ha, hb, hu⟩
  · -- Lifted from suspended to audio-only.
    simp [hu, RestoresVideo, hs]
  · simpa [hu, RestoresVideo, hs] using h
  · simp [hu, RestoresVideo, not_le.mpr hv]
  · simpa [hu, RestoresVideo, not_le.mpr hv] using h
  · -- Video is restored: the pacer is on `LOW`.
    simp [hu, RestoresVideo, hs, ha, hb, hv]
  · simp [hu, RestoresVideo, ha, not_le.mpr hb]
  · simp [hu, RestoresVideo, ha]
  · -- The layer decision of full-video mode.
    have hc : c.desiredLayer = c.pacer.currentLayer := h ha
    have hno : ¬ c.RestoresVideo bps := by simp [RestoresVideo, ha]
    rw [hu]
    rcases ({ c.pacer with suspendStreak := 0 } : SubscriberPacer).updateLayer_cases bps with
      ⟨l, s, hl⟩ | ⟨s, hl⟩
    · simp [hl, hno]
    · simp [hl, hno, hc]

/-- Over any readings fed to a fresh client, the two copies agree in full-video mode after
every reading exactly when no reading restores video while the client is not on `LOW`. -/
theorem coherent_run_iff (id : ClientId) (rtc : Rtc) (metrics : MetricsHandle)
    (readings : List ℕ) :
    (∀ pre, pre <+: readings → (Run.run drive (Client.new id rtc metrics).1 pre).Coherent) ↔
      Run.Along drive (fun c bps => c.RestoresVideo bps → c.desiredLayer = .low)
        (Client.new id rtc metrics).1 readings := by
  have hnew : (Client.new id rtc metrics).1.Coherent := fun _ => rfl
  exact Run.forall_prefix_iff coherent_drive_iff hnew readings

/-- Up to `MEDIUM`, down to audio-only, back to video: the pacer is on `LOW`, the client on
`MEDIUM`. -/
theorem coherent_fails : ¬ (Run.run drive (Client.new ⟨0⟩ .new .throwaway).1
    [400000, 400000, 400000, 50000, 200000]).Coherent := by
  decide

end SfuKit.Client
