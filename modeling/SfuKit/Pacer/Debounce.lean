import SfuKit.Library.Streak
import SfuKit.Pacer.Advances

/-! # The suspend debounce

The suspend streak of a pacer never exceeds the number of its last readings below
`SUSPEND_VIDEO_BPS`, so a suspension comes after `SUSPEND_STREAK` of them in a row.
-/
namespace SfuKit

open Library Streak

theorem suspendVideo_of_emits {action : PacerAction} {peer id : ClientId} {now : Instant} {bps : ℕ}
    {signals : Option PerSubscriber}
    (h : (Obs.advance peer now bps action signals).emits = some (.suspendVideo id true)) :
    action = .suspendVideo ∧ peer = id := by
  cases action <;> simp [Obs.emits, applyPacerAction] at h
  exact ⟨rfl, h⟩

variable {P : Advance → Prop} [DecidablePred P]

/-- The pacer of a client counts readings that have `P`. -/
structure Debounced (P : Advance → Prop) [DecidablePred P] (c : Client) (l : List Advance) : Prop where
  config : c.pacer.config = .default
  streak : c.pacer.suspendStreak.toNat ≤ trailing P l
  idle : c.pacer.suspended = true → c.pacer.suspendStreak = 0

/-- A reading keeps the count if a low one has `P`, and suspends only after a streak. -/
theorem Debounced.advance {c : Client} {l : List Advance}
    (h : Debounced P c l) {now : Instant} {bps : ℕ} {signals : Option PerSubscriber}
    (hP : bps < suspendVideoBps → P ⟨now, bps, (c.pacer.update bps).2, signals⟩) :
    let a : Advance := ⟨now, bps, (c.pacer.update bps).2, signals⟩
    Debounced P (driveReading (c.ticked now signals) now bps signals).client (l ++ [a]) ∧
      (a.action = .suspendVideo → suspendStreak.toNat ≤ trailing P (l ++ [a])) := by
  intro a
  obtain ⟨_, _, hclient⟩ := driveReading_client (c.ticked now signals) now bps signals
  rw [Client.ticked_pacer] at hclient
  have hlow : bps < c.pacer.config.suspendVideoBps → trailing P (l ++ [a]) = trailing P l + 1 := by
    intro hlt
    rw [h.config] at hlt
    rw [trailing_concat, if_pos (hP hlt)]
  have hsucc : (u8SaturatingSucc c.pacer.suspendStreak).toNat ≤ trailing P l + 1 := by
    rw [u8SaturatingSucc_toNat]
    have hs := h.streak
    omega
  have hconfig : (c.pacer.update bps).1.config = .default := by
    rw [SubscriberPacer.update_config]
    exact h.config
  have hcleared : (c.pacer.update bps).1.suspendStreak = 0 →
      Debounced P (driveReading (c.ticked now signals) now bps signals).client (l ++ [a]) := by
    intro h0
    rw [hclient]
    refine ⟨hconfig, ?_, fun _ => h0⟩
    dsimp only
    rw [h0]
    exact Nat.zero_le _
  rcases c.pacer.update_suspendStreak bps with ⟨hs, hu⟩ | ⟨h0, hact⟩ | ⟨hv, hk, h0⟩ | ⟨hv, hu, hs⟩
  · -- A suspended pacer has an empty streak.
    refine ⟨hcleared ?_, fun hact => ?_⟩
    · rw [hu]
      exact h.idle hs
    · dsimp only [a] at hact
      rw [hu] at hact
      cases hact
  · exact ⟨hcleared h0, fun h => absurd h hact⟩
  · refine ⟨hcleared h0, fun _ => ?_⟩
    rw [hlow hv]
    rw [h.config] at hk
    exact (UInt8.le_iff_toNat_le.mp hk).trans hsucc
  · refine ⟨?_, fun hact => ?_⟩
    · rw [hclient]
      refine ⟨hconfig, ?_, fun hsusp => ?_⟩
      · dsimp only
        rw [hu, hlow hv]
        exact hsucc
      · dsimp only at hsusp
        rw [hu] at hsusp
        dsimp only at hsusp
        rw [hs] at hsusp
        cases hsusp
    · dsimp only [a] at hact
      rw [hu] at hact
      cases hact

/-- If low readings have `P`, every run keeps the count, and every suspension comes after
`SUSPEND_STREAK` advances in a row that have `P`. -/
theorem debounced_invariant {F : Features} {B : PerSubscriber → Prop}
    (hB : EntryInvariant B) (hP : ∀ c now bps signals action, Reading F B c now bps signals →
      bps < suspendVideoBps → P ⟨now, bps, action, signals⟩) :
    PacerInvariant F (fun _ _ _ => True) B (Debounced P)
      (Entrywise fun pre o => ∀ id, o.emits = some (.suspendVideo id true) →
        suspendStreak.toNat ≤ trailing P (advances id (pre ++ [o]))) where
  entry := hB
  new id rtc metrics := ⟨rfl, Nat.zero_le _, fun h => by cases h⟩
  frame l hs h := by
    refine ⟨?_, ?_, ?_⟩ <;> rw [hs.pacer]
    · exact h.config
    · exact h.streak
    · exact h.idle
  advance c now bps signals l hr h := (h.advance (hP c now bps signals _ hr)).1
  log_nil := entrywise_nil _
  log_advance c now bps signals h hr hQ hG := by
    rw [entrywise_concat]
    refine ⟨hG, fun id hid => ?_⟩
    obtain ⟨hact, rfl⟩ := suspendVideo_of_emits hid
    rw [advances_concat, advanceOf_self]
    exact (hQ.advance (hP c now bps signals _ hr)).2 hact
  log_delivery c heap origin data h _ _ hG := by
    rw [entrywise_concat]
    exact ⟨hG, fun id hid => by cases hid⟩
  log_sample id arrival send h hG := by
    rw [entrywise_concat]
    exact ⟨hG, fun id hid => by cases hid⟩

end SfuKit
