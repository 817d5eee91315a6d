import SfuKit.Pacer.Debounce

/-! # The min-tick floor

With the estimator as the sole driver, a subscriber's pacer advances at most once per
`PACER_MIN_TICK_INTERVAL`, whoever calls and in whatever order the instants come. The
debounce then takes its time: a suspension ends a window of low readings a tick apart.
-/
namespace SfuKit

open Library Streak

/-- The second advance keeps the tick floor after the first. -/
def Advance.Apart (a b : Advance) : Prop := a.now + pacerMinTickInterval ≤ b.now

/-- The gate of a client remembers its last advance. -/
def RemembersTick (c : Client) (l : List Advance) : Prop :=
  c.lastPacerDrive = l.getLast?.map (·.now)

/-- The advances of every client keep the tick floor. -/
def FloorKept (h : List Obs) : Prop := ∀ id, (advances id h).IsChain Advance.Apart

/-- The last `SUSPEND_STREAK` advances of `id`. -/
def lastAdvances (id : ClientId) (h : List Obs) : List Advance :=
  (advances id h).drop ((advances id h).length - suspendStreak.toNat)

/-- The last advances are a full streak of low readings that spans its ticks. -/
structure DebounceWindow (id : ClientId) (h : List Obs) : Prop where
  length : (lastAdvances id h).length = suspendStreak.toNat
  low : ∀ a ∈ lastAdvances id h, a.bps < suspendVideoBps
  span : ∀ first ∈ (lastAdvances id h).head?, ∀ last ∈ (lastAdvances id h).getLast?,
    first.now + (suspendStreak.toNat - 1) * pacerMinTickInterval ≤ last.now

theorem DebounceWindow.of_trailing {id : ClientId} {h : List Obs}
    (hstreak : suspendStreak.toNat ≤ trailing (fun a => a.bps < suspendVideoBps) (advances id h))
    (hapart : (advances id h).IsChain Advance.Apart) : DebounceWindow id h := by
  obtain ⟨hlen, hlow⟩ := (le_trailing_iff _ _ _).mp hstreak
  have hlength : (lastAdvances id h).length = suspendStreak.toNat := by
    rw [lastAdvances, List.length_drop]
    omega
  refine ⟨hlength, hlow, fun first hfirst last hlast => ?_⟩
  have hspan := le_getLast_of_isChain (f := Advance.now) (d := pacerMinTickInterval)
    (l := lastAdvances id h) (hapart.drop _) first hfirst last hlast
  rw [hlength] at hspan
  exact hspan

theorem tickFloor_invariant {F : Features} (hF : F.pacerLayersDrive = true) :
    PacerInvariant F (fun _ _ _ => True) (fun _ => True) RemembersTick FloorKept where
  entry := .of_true
  new id rtc metrics := rfl
  frame l hs h := hs.lastPacerDrive.trans h
  advance c now bps signals l hr _ := by
    cases signals with
    | none => exact absurd hr (Features.not_pollAllDrives hF)
    | some s =>
      obtain ⟨_, _, hclient⟩ := driveReading_client (c.ticked now (some s)) now bps (some s)
      rw [RemembersTick, hclient, List.getLast?_concat]
      rfl
  log_nil id := List.isChain_nil
  log_advance c now bps signals h hr hQ hG id := by
    rw [advances_concat]
    by_cases hid : c.id = id
    · subst hid
      rw [advanceOf_self]
      refine List.IsChain.append (hG c.id) (List.isChain_singleton _) fun a ha b hb => ?_
      obtain rfl : (⟨now, bps, (c.pacer.update bps).2, signals⟩ : Advance) = b := by simpa using hb
      cases signals with
      | none => exact absurd hr (Features.not_pollAllDrives hF)
      | some s =>
        have hlast : c.lastPacerDrive = some a.now := by
          rw [hQ, Option.mem_def.mp ha]
          rfl
        exact hr.1 a.now hlast
    · rw [advanceOf_ne hid]
      simpa using hG id
  log_delivery c heap origin data h _ _ hG id := by
    rw [advances_concat]
    simpa [Obs.advanceOf] using hG id
  log_sample peer arrival send h hG id := by
    rw [advances_concat]
    simpa [Obs.advanceOf] using hG id

theorem advances_updatePacerLayers {D : Type*} {r : Registry D} (hnodup : r.ids.Nodup)
    {c : Client} (hc : c ∈ r.clients) {origin : ClientId} (ho : c.id ≠ origin) {now : Instant}
    (hest : (r.bandwidth.estimateWithTerm c.id now).isSome) (hdue : c.TickDue now) :
    ∃ a : Advance, a.now = now ∧
      advances c.id (r.updatePacerLayers origin now).history = advances c.id r.history ++ [a] := by
  obtain ⟨s, hs⟩ : ∃ s, r.bandwidth.subscribers.lookup c.id = some s := by
    unfold BandwidthEstimator.estimateWithTerm at hest
    rw [Option.isSome_map] at hest
    exact Option.isSome_iff_exists.mp hest
  obtain ⟨-, -, hown⟩ := driveSubscriber_due c now hs ho hdue
  let a : Advance :=
    ⟨now, asU64 (s.combinedBps now), (c.pacer.update (asU64 (s.combinedBps now))).2, some s⟩
  refine ⟨a, rfl, ?_⟩
  rw [updatePacerLayers_history, advances_append,
    advances_flatMap hnodup (fun d => driveSubscriber_peer d now r.bandwidth origin) hc, hown,
    driveReading_history]
  simp [a, advances, Obs.advanceOf]

namespace Process
variable {D : Type*} [ActiveSpeakerDetector D] (F : Features)

/-- After any calls the advances of every subscriber keep the tick floor. At any moment, also
half-way through a drain, a call that finds an estimate for a subscriber other than the
origin, a tick after its last advance, advances it. Every suspension ends a full window of
low readings. -/
theorem tickFloor_run (hF : F.pacerLayersDrive = true) (now : Instant) (ops : List Op) :
    let p := run F (start now : Process D) ops
    (∀ id, (advances id p.reg.history).IsChain Advance.Apart) ∧
    (∀ (n : ℕ) (drained : Instant) (origin : ClientId) (t : Instant),
      let r := (Registry.fanoutStep F drained)^[n] p.reg
      ∀ c ∈ r.clients, c.id ≠ origin → (r.bandwidth.estimateWithTerm c.id t).isSome →
        (∀ a ∈ (advances c.id r.history).getLast?, a.now + pacerMinTickInterval ≤ t) →
        ∃ a : Advance, a.now = t ∧
          advances c.id (r.updatePacerLayers origin t).history = advances c.id r.history ++ [a]) ∧
    ∀ pre o post, p.reg.history = pre ++ o :: post → ∀ id,
      o.emits = some (.suspendVideo id true) → DebounceWindow id (pre ++ [o]) := by
  intro p
  have hopens : ∀ op ∈ ops, Op.Opens (fun _ _ _ => True) op := fun op _ =>
    op.opens_of_forall fun _ _ _ => trivial
  have hfloor := paced_run (D := D) (tickFloor_invariant hF) now ops hopens
  have hstreak := paced_run (D := D) (debounced_invariant (F := F) .of_true
    (P := fun a => a.bps < suspendVideoBps) fun _ _ _ _ _ _ h => h) now ops hopens
  have hnodup : p.reg.ids.Nodup := ids_nodup (wellFormed_run F now ops)
  refine ⟨hfloor.log, fun n drained origin t => ?_, fun pre o post hsplit id hid => ?_⟩
  · intro r c hc ho hest hlast
    have hkept : PacerInvariant.Kept (fun _ => True) RemembersTick FloorKept p.reg r :=
      Function.Iterate.rec (PacerInvariant.Kept _ _ _ p.reg) hfloor.kept
        (fun s hs => (tickFloor_invariant hF).kept_fanoutStep hnodup hs drained) n
    refine advances_updatePacerLayers (by rw [hkept.ids]; exact hnodup) hc ho hest ?_
    intro last hl
    have hrem : c.lastPacerDrive = (advances c.id r.history).getLast?.map (·.now) :=
      hkept.clients c hc
    rw [hrem, Option.mem_def, Option.map_eq_some_iff] at hl
    obtain ⟨a, ha, rfl⟩ := hl
    exact hlast a ha
  · refine .of_trailing (hstreak.log pre o post hsplit id hid) ?_
    have hall := hfloor.log id
    rw [hsplit, List.append_cons, advances_append] at hall
    exact hall.left_of_append

/-- Readings of 5 kbit/s at 0, 10 and 100 ms: the one inside the floor does not count, and
the window of the suspension spans 100 ms. -/
theorem tickFloor_run_burst :
    let p := run .full (start 0 : Process PeerDetector) [.clientNew .new .throwaway,
      .insert ⟨0⟩ 0, .recordNativeEstimate ⟨0⟩ (.num 5000), .updatePacerLayers ⟨1⟩ 0,
      .updatePacerLayers ⟨1⟩ 10000000, .updatePacerLayers ⟨1⟩ 100000000]
    DebounceWindow ⟨0⟩ p.reg.history := by
  intro p
  obtain ⟨-, -, hwindow⟩ := tickFloor_run (D := PeerDetector) .full rfl 0 [.clientNew .new .throwaway,
    .insert ⟨0⟩ 0, .recordNativeEstimate ⟨0⟩ (.num 5000), .updatePacerLayers ⟨1⟩ 0,
    .updatePacerLayers ⟨1⟩ 10000000, .updatePacerLayers ⟨1⟩ 100000000]
  have hlast : p.reg.history.getLast?.bind Obs.emits = some (.suspendVideo ⟨0⟩ true) := by
    decide +kernel
  obtain ⟨o, ho, hemits⟩ := Option.bind_eq_some_iff.mp hlast
  have hsplit : p.reg.history.dropLast ++ [o] = p.reg.history := List.dropLast_append_getLast? o ho
  rw [← hsplit]
  exact hwindow _ o [] hsplit.symm ⟨0⟩ hemits

end Process
end SfuKit
