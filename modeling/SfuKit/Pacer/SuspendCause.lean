import SfuKit.Estimator.Envelope
import SfuKit.Pacer.Debounce

/-! # Why video is suspended

The delay, loss and GoogCC estimates never fall below their floors, which lie above
`SUSPEND_VIDEO_BPS`. Only a native estimate or a fresh client hint can take the
combined estimate below it, and it takes a streak of such readings to suspend.
-/
namespace SfuKit

open Library Streak

/-- A native estimate, or a hint younger than `CLIENT_HINT_MAX_AGE`, was below
`SUSPEND_VIDEO_BPS` when the reading was taken. -/
def Advance.LowCeiling (a : Advance) : Prop :=
  ∃ s, a.signals = some s ∧
    ((∃ v, s.nativeEstimateBps = some (.num v) ∧ v < suspendVideoBps) ∨
      ∃ h, s.clientHint = some h ∧ durationSince a.now h.receivedAt < clientHintMaxAge ∧
        h.bps < suspendVideoBps)

/-- A ceiling was low at each of the last `SUSPEND_STREAK` advances of `id`. -/
def LowCeilings (id : ClientId) (h : List Obs) : Prop :=
  suspendStreak.toNat ≤ (advances id h).length ∧
    ∀ a ∈ (advances id h).drop ((advances id h).length - suspendStreak.toNat), a.LowCeiling

theorem LowCeilings.exists_lowCeiling {id : ClientId} {h : List Obs} (hl : LowCeilings id h) :
    ∃ a ∈ advances id h, a.LowCeiling := by
  obtain ⟨hlen, hlow⟩ := hl
  have hpos : 0 < ((advances id h).drop ((advances id h).length - suspendStreak.toNat)).length := by
    have htwo : suspendStreak.toNat = 2 := rfl
    rw [List.length_drop]
    omega
  obtain ⟨a, ha⟩ := List.exists_mem_of_length_pos hpos
  exact ⟨a, List.mem_of_mem_drop ha, hlow a ha⟩

/-- A combined estimate below the threshold has a low ceiling. -/
theorem lowCeiling_of_reading {F : Features} (hF : F.pacerLayersDrive = true) {c : Client}
    {now : Instant} {bps : ℕ} {signals : Option PerSubscriber}
    (hr : Reading F PerSubscriber.Enclosed c now bps signals)
    (hlow : bps < suspendVideoBps) (action : PacerAction) :
    (⟨now, bps, action, signals⟩ : Advance).LowCeiling := by
  cases signals with
  | none => exact absurd hr (Features.not_pollAllDrives hF)
  | some s =>
    obtain ⟨-, hs, rfl⟩ := hr
    have hfloor : suspendVideoBps < 30000 := by decide
    refine ⟨s, rfl, ?_⟩
    rcases PerSubscriber.says_of_lt hs (hlow.trans hfloor) with ⟨v, hv, hbps⟩ |
      ⟨hint, hhint, hage, hbps⟩
    · refine .inl ⟨v, hv, not_le.mp fun hle => ?_⟩
      have hge : suspendVideoBps ≤ asU64 (max 0 v) := PerSubscriber.le_asU64 (by decide) hle
      omega
    · exact .inr ⟨hint, hhint, hage, hbps.trans_lt hlow⟩

namespace Process
variable {D : Type*} [ActiveSpeakerDetector D] (F : Features)

/-- After any calls, every suspension of video was emitted by an advance of its subscriber
with a low ceiling at each of its last `SUSPEND_STREAK` advances, every queued suspension
event comes from such an advance, and a subscriber whose advances have met neither a native
estimate nor a hint was never suspended. -/
theorem suspend_has_cause (hF : F.pacerLayersDrive = true) (now : Instant) (ops : List Op) :
    let p := run F (start now : Process D) ops
    (∀ pre o post, p.reg.history = pre ++ o :: post → ∀ id,
      o.emits = some (.suspendVideo id true) → LowCeilings id (pre ++ [o])) ∧
    (∀ id, .suspendVideo id true ∈ p.reg.toPropagate →
      ∃ o ∈ p.reg.history, o.emits = some (.suspendVideo id true)) ∧
    ∀ id, (∀ a ∈ advances id p.reg.history, ∀ s ∈ a.signals,
      s.nativeEstimateBps = none ∧ s.clientHint = none) →
        ∀ o ∈ p.reg.history, o.emits ≠ some (.suspendVideo id true) := by
  intro p
  have hopens : ∀ op ∈ ops, Op.Opens (fun _ _ _ => True) op := fun op _ =>
    op.opens_of_forall fun _ _ _ => trivial
  classical
  have hpaced := paced_run (D := D) (debounced_invariant PerSubscriber.enclosed_invariant
    fun c now bps signals action hr hlow => lowCeiling_of_reading hF hr hlow action) now ops hopens
  have hlog : ∀ pre o post, p.reg.history = pre ++ o :: post → ∀ id,
      o.emits = some (.suspendVideo id true) → LowCeilings id (pre ++ [o]) :=
    fun pre o post hsplit id hid => (le_trailing_iff _ _ _).mp (hpaced.log pre o post hsplit id hid)
  refine ⟨hlog, fun id hid => hpaced.exists_emits hid rfl, fun id hnone o ho hemits => ?_⟩
  obtain ⟨pre, post, hsplit⟩ := List.append_of_mem ho
  obtain ⟨a, ha, s, hs, hcause⟩ :=
    LowCeilings.exists_lowCeiling (hlog pre o post hsplit id hemits)
  have hmem : a ∈ advances id p.reg.history := by
    rw [hsplit, List.append_cons, advances_append]
    exact List.mem_append_left _ ha
  obtain ⟨hnative, hhint⟩ := hnone a hmem s hs
  rw [hnative, hhint] at hcause
  rcases hcause with ⟨v, hv, -⟩ | ⟨b, hb, -⟩
  · cases hv
  · cases hb

/-- Two low native estimates suspend client 0, and the advance behind it is on record. -/
theorem suspend_has_cause_native :
    ∃ o ∈ (run .full (start 0 : Process PeerDetector) [.clientNew .new .throwaway, .insert ⟨0⟩ 0,
      .recordNativeEstimate ⟨0⟩ (.num 5000), .updatePacerLayers ⟨1⟩ 0,
      .updatePacerLayers ⟨1⟩ 200000000]).reg.history, o.emits = some (.suspendVideo ⟨0⟩ true) :=
  (suspend_has_cause (D := PeerDetector) .full rfl 0 _).2.1 ⟨0⟩ (by decide +kernel)

end Process
end SfuKit
