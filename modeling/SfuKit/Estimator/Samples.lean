import SfuKit.Estimator.Trendline
import SfuKit.Tracks.CrossAdvertisement

/-! # Who feeds the GoogCC estimators

A GoogCC estimator is created by `enable_googcc_for_subscriber`, fed by the end of
`poll_all` and dropped with its subscriber. Every other call leaves it alone, so a
connected subscriber's estimator is what its samples on record make of a new one.
-/
namespace SfuKit

open Library

def Obs.sampleOf (id : ClientId) : Obs → Option (ℚ × ℚ)
  | .sample peer arrivalMs sendMs => if peer = id then some (arrivalMs, sendMs) else none
  | .advance .. | .delivery .. => none

/-- The samples of client `id`, oldest first. -/
def samples (id : ClientId) (h : List Obs) : List (ℚ × ℚ) := h.filterMap (Obs.sampleOf id)

@[simp] theorem samples_append (id : ClientId) (h h' : List Obs) :
    samples id (h ++ h') = samples id h ++ samples id h' := List.filterMap_append

@[simp] theorem samples_deliveries (id : ClientId) (heap : List ArcTrack) (l : List Client)
    (p : Propagated) : samples id (deliveries heap l p) = [] := by
  cases p with
  | mediaData origin data =>
    rw [samples, deliveries, List.filterMap_map, List.filterMap_eq_nil_iff]
    intro c _
    rfl
  | _ => rfl

@[simp] theorem samples_driveReading (id : ClientId) (c : Client) (now : Instant) (bps : ℕ)
    (signals : Option PerSubscriber) : samples id (driveReading c now bps signals).history = [] := by
  rw [driveReading_history]
  rfl

theorem samples_driveSubscriber (id : ClientId) (b : BandwidthEstimator) (origin : ClientId)
    (now : Instant) (c : Client) : samples id (driveSubscriber b origin now c).history = [] := by
  rcases driveSubscriber_cases c now b origin with ⟨-, -, h⟩ | ⟨s, -, -, -, -, -, h⟩
  · rw [h]
    rfl
  · rw [h]
    exact samples_driveReading ..

theorem ingestTwcc_googcc (s : PerSubscriber) (feedback : TwccFeedback) (now : Instant) :
    (ingestTwcc s feedback now).googcc = s.googcc := by
  have hsample : ∀ (s : PerSubscriber) (x : TwccSample), (ingestSample s x).googcc = s.googcc := by
    intro s x
    unfold ingestSample
    dsimp only
    repeat' split
    all_goals rfl
  have hkept : ∀ (s' : PerSubscriber) (x : TwccSample), s'.googcc = s.googcc →
      (ingestSample s' x).googcc = s.googcc := fun s' x h => (hsample s' x).trans h
  exact Run.invariant_all hkept feedback.samples rfl

namespace BandwidthEstimator
variable (b : BandwidthEstimator) (id other : ClientId)

def googcc : Option GoogCcEstimator := (b.subscribers.lookup id).bind (·.googcc)

theorem googcc_getOrInsert : (b.getOrInsert id).googcc = b.googcc id := by
  unfold getOrInsert googcc
  cases b.subscribers.lookup id <;> rfl

theorem googcc_modify {f : PerSubscriber → PerSubscriber} (hf : ∀ s, (f s).googcc = s.googcc) :
    (b.modify id f).googcc other = b.googcc other := by
  rw [googcc, lookup_modify]
  split_ifs with h
  · rw [h, Option.bind_some, hf, googcc_getOrInsert]
  · rfl

theorem googcc_enable : (b.enableGoogccForSubscriber id).googcc other =
    if other = id then some ((b.googcc id).getD .new) else b.googcc other := by
  rw [googcc, enableGoogccForSubscriber, lookup_modify]
  split_ifs
  · rw [Option.bind_some, googcc_getOrInsert]
  · rfl

theorem googcc_onReceive (a s l : ℚ) : (b.googccOnReceive id a s l).googcc other =
    if other = id then (b.googcc id).map fun g => (g.onReceive a s l).1 else b.googcc other := by
  rw [googcc, lookup_googccOnReceive]
  split_ifs
  · unfold googcc
    cases b.subscribers.lookup id <;> rfl
  · rfl

theorem googcc_reapDead :
    (b.reapDead id).googcc other = if other = id then none else b.googcc other := by
  rw [googcc, lookup_reapDead]
  split_ifs <;> rfl

theorem googcc_feed (l : List Client) (hl : (l.map (·.id)).Nodup) (a s : ℚ) :
    (l.foldl (fun b c => b.googccOnReceive c.id a s 0) b).googcc other =
      if other ∈ l.map (·.id) then (b.googcc other).map fun g => (g.onReceive a s 0).1
      else b.googcc other := by
  induction l generalizing b with
  | nil => rfl
  | cons c rest ih =>
    rw [List.map_cons, List.nodup_cons] at hl
    rw [List.foldl_cons, ih _ hl.2, googcc_onReceive]
    by_cases h : other = c.id
    · subst h
      simp [hl.1]
    · simp [h]

theorem googcc_reap (l : List Client) :
    (l.foldl (fun b c => b.reapDead c.id) b).googcc other =
      if other ∈ l.map (·.id) then none else b.googcc other := by
  induction l generalizing b with
  | nil => rfl
  | cons c rest ih =>
    rw [List.foldl_cons, ih, googcc_reapDead]
    by_cases h : other = c.id
    · simp [h]
    · simp [h]

end BandwidthEstimator

namespace Registry
variable {D : Type*}

/-- No GoogCC estimator changes and no sample is recorded. -/
structure Quiet (r r' : Registry D) : Prop where
  googcc : ∀ id, r'.bandwidth.googcc id = r.bandwidth.googcc id
  samples : ∀ id, samples id r'.history = samples id r.history
  epoch : r'.bweEpoch = r.bweEpoch

namespace Quiet
variable {r r' r'' : Registry D}

theorem refl (r : Registry D) : Quiet r r := ⟨fun _ => rfl, fun _ => rfl, rfl⟩

theorem trans (h : Quiet r r') (h' : Quiet r' r'') : Quiet r r'' :=
  ⟨fun id => (h'.googcc id).trans (h.googcc id), fun id => (h'.samples id).trans (h.samples id),
    h'.epoch.trans h.epoch⟩

theorem of_eq (hb : r'.bandwidth = r.bandwidth) (hh : r'.history = r.history)
    (he : r'.bweEpoch = r.bweEpoch) : Quiet r r' :=
  ⟨fun id => by rw [hb], fun id => by rw [hh], he⟩

theorem modify (id : ClientId) (f : PerSubscriber → PerSubscriber)
    (hf : ∀ s, (f s).googcc = s.googcc) (hb : r'.bandwidth = r.bandwidth.modify id f)
    (hh : r'.history = r.history) (he : r'.bweEpoch = r.bweEpoch) : Quiet r r' :=
  ⟨fun other => by rw [hb, BandwidthEstimator.googcc_modify _ _ _ hf], fun id => by rw [hh], he⟩

theorem log {l : List Obs} (hl : ∀ id, SfuKit.samples id l = []) (hb : r'.bandwidth = r.bandwidth)
    (hh : r'.history = r.history ++ l) (he : r'.bweEpoch = r.bweEpoch) : Quiet r r' :=
  ⟨fun id => by rw [hb], fun id => by rw [hh, samples_append, hl, List.append_nil], he⟩

end Quiet

variable (F : Features) (now : Instant)

theorem quiet_updatePacerLayers (r : Registry D) (origin : ClientId) :
    Quiet r (r.updatePacerLayers origin now) := by
  refine .log (fun id => ?_) rfl rfl rfl
  rw [List.flatMap_map, samples, List.filterMap_flatMap, List.flatMap_eq_nil_iff]
  exact fun c _ => samples_driveSubscriber id r.bandwidth origin now c

theorem quiet_fanout (r : Registry D) (p : Propagated) : Quiet r (r.fanout now p) :=
  .log (fun id => samples_deliveries id r.heap r.clients p) rfl (fanout_history now r p) rfl

theorem quiet_fanoutStep (r : Registry D) : Quiet r (r.fanoutStep F now) := by
  unfold fanoutStep
  cases r.toPropagate with
  | nil => exact .refl r
  | cons p rest =>
    have hpop : Quiet r { r with toPropagate := rest } := .of_eq rfl rfl rfl
    refine hpop.trans ?_
    cases p with
    | clientBudgetHint peer bps =>
      simp only [fanoutEvent]
      split_ifs
      · exact .modify peer (fun s => { s with clientHint := some ⟨bps, now⟩ }) (fun _ => rfl) rfl rfl rfl
      · exact quiet_fanout now _ _
    | mediaData origin data =>
      simp only [fanoutEvent]
      split_ifs
      · exact (quiet_updatePacerLayers now _ origin).trans (quiet_fanout now _ _)
      · exact quiet_fanout now _ _
    | _ => exact quiet_fanout now _ _

theorem quiet_fanoutPending (r : Registry D) : Quiet r (r.fanoutPending F now) :=
  fanoutPending_invariant F now (P := Quiet r)
    (fun s hs => hs.trans (quiet_fanoutStep F now s)) (.refl r)

section Poll
variable [ActiveSpeakerDetector D]

theorem quiet_handlePolled (clock : Instant) (i : ℕ) (c : Client) (st : PollState D)
    (p : Propagated) : Quiet st.reg (handlePolled F now clock i c st p).1.reg := by
  have hlevel : ∀ p, Quiet st.reg (st.reg.recordPolledLevel F clock c p) := by
    intro p
    obtain ⟨_, h⟩ := recordPolledLevel_eq F clock c st.reg p
    rw [h]
    exact .of_eq rfl rfl rfl
  cases p with
  | bandwidthEstimate peer bps =>
    simp only [handlePolled]
    split_ifs
    · exact .modify peer (fun s => { s with nativeEstimateBps := some (.num bps) }) (fun _ => rfl)
        rfl rfl rfl
    · exact .log (fun id => samples_driveReading id c clock bps none) rfl rfl rfl
    · exact .of_eq rfl rfl rfl
  | timeout t => exact .refl _
  | noop => exact .refl _
  | rtcpStats peer stats => exact .of_eq rfl rfl rfl
  | _ => exact (hlevel _).trans (.of_eq rfl rfl rfl)

theorem quiet_pollStep (i : ℕ) (st : PollState D) (x : Instant × PollResult) :
    Quiet st.reg (pollStep F now i st x).1.reg := by
  unfold pollStep
  cases hc : st.reg.clients[i]? with
  | none => exact .refl _
  | some c =>
    dsimp only
    split_ifs
    · generalize c.pollOutput st.reg.heap st.nextAlloc x.1 x.2 = q
      refine Quiet.trans ?_ (quiet_handlePolled F now x.1 i q.1
        { st with reg := { st.reg with clients := st.reg.clients.set i q.1
                                       metrics := st.reg.metrics.calls q.2.2 }
                  nextAlloc := st.nextAlloc + 1 } q.2.1)
      exact .of_eq rfl rfl rfl
    · exact .refl _

/-- The timing a poll leaves is that of the video packet it returned, or the one before. -/
theorem pollStep_lastVideoTiming {i : ℕ} {st : PollState D} {c : Client}
    (hc : st.reg.clients[i]? = some c) (x : Instant × PollResult) :
    (pollStep F now i st x).1.lastVideoTiming = st.lastVideoTiming ∨
      ∃ data, x.2 = some (.event (.mediaData data)) ∧
        (SfuMediaPayload.fromStr0m data).isVideo = true ∧
        (pollStep F now i st x).1.lastVideoTiming =
          some (asMillisF64 (durationSince now st.reg.bweEpoch),
            (SfuMediaPayload.fromStr0m data).rtpSendMs) := by
  simp only [pollStep, hc]
  split_ifs
  · have hpolled := c.pollOutput_polled st.reg.heap st.nextAlloc x.1 x.2
    generalize c.pollOutput st.reg.heap st.nextAlloc x.1 x.2 = q at hpolled
    obtain ⟨c', p, calls⟩ := q
    dsimp only at hpolled ⊢
    cases hpolled with
    | mediaData data hx =>
      simp only [handlePolled, videoTiming]
      split_ifs with hvideo
      · simp only [Bool.and_eq_true] at hvideo
        exact .inr ⟨data, hx, hvideo.2, rfl⟩
      · exact .inl rfl
    | _ => exact .inl rfl
  · exact .inl rfl

end Poll
end Registry
end SfuKit
