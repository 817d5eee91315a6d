import SfuKit.Speaker.Membership

/-! # Where label series come from

The per-peer series that the calls on the metrics handle create. Between two sweeps the
set of series only grows, by series of connected clients and of new ones.
-/
namespace SfuKit

/-- The call removes nothing, and creates series of peers in `S` only. -/
def MetricCall.Labels (S : ℕ → Prop) : MetricCall → Prop
  | .withLabelValues _ peerId => S peerId
  | .reapDeadPeer _ => False
  | .inc _ | .incActiveParticipants | .decActiveParticipants => True

/-- No series is lost, and new ones are of peers in `S`. -/
structure SfuMetrics.Grows (S : ℕ → Prop) (m m' : SfuMetrics) : Prop where
  keeps : m.series ⊆ m'.series
  gains : ∀ s ∈ m'.series, s ∈ m.series ∨ S s.2

namespace SfuMetrics
variable {S : ℕ → Prop} {m m' m'' : SfuMetrics}

theorem Grows.refl (m : SfuMetrics) : m.Grows S m := ⟨List.Subset.refl _, fun _ h => .inl h⟩

theorem Grows.trans (h : m.Grows S m') (h' : m'.Grows S m'') : m.Grows S m'' := by
  refine ⟨List.Subset.trans h.keeps h'.keeps, fun s hs => ?_⟩
  rcases h'.gains s hs with hs | hs
  · exact h.gains s hs
  · exact .inr hs

theorem grows_call {c : MetricCall} (h : c.Labels S) (m : SfuMetrics) : m.Grows S (m.call c) := by
  cases c with
  | withLabelValues s peerId =>
    simp only [call]
    split_ifs
    · exact .refl m
    · refine ⟨List.subset_cons_self _ _, fun x hx => ?_⟩
      rcases List.mem_cons.mp hx with rfl | hx
      · exact .inr h
      · exact .inl hx
  | reapDeadPeer peerId => exact h.elim
  | inc | incActiveParticipants | decActiveParticipants =>
    exact ⟨List.Subset.refl _, fun _ h => .inl h⟩

theorem grows_calls {l : List MetricCall} (h : ∀ c ∈ l, c.Labels S) (m : SfuMetrics) :
    m.Grows S (m.calls l) := by
  induction l generalizing m with
  | nil => exact .refl m
  | cons c rest ih =>
    obtain ⟨hc, hrest⟩ := List.forall_mem_cons.mp h
    exact (grows_call hc m).trans (ih hrest _)

theorem mem_call_withLabelValues (m : SfuMetrics) (s : PeerSeries) (peerId : ℕ) :
    (s, peerId) ∈ (m.call (.withLabelValues s peerId)).series := by
  simp only [call]
  split_ifs with h
  · exact h
  · exact List.mem_cons_self

end SfuMetrics

section Client
variable {S : ℕ → Prop} (c : Client) (now : Instant)

theorem driveReading_labels (bps : ℕ) (signals : Option PerSubscriber) :
    ∀ x ∈ (driveReading c now bps signals).calls, x.Labels S := by
  simp only [driveReading]
  cases (applyPacerAction (c.drivePacer bps).2 c.id).2 with
  | none => simp
  | some b => simp [MetricCall.Labels]

theorem driveSubscriber_labels (h : S c.id.raw) (b : BandwidthEstimator) (origin : ClientId) :
    ∀ x ∈ (driveSubscriber b origin now c).calls, x.Labels S := by
  unfold driveSubscriber
  rw [pacerTickReady_eq]
  split_ifs
  · simp [Driven.skip]
  · split
    · simp [Driven.skip]
    · simp only [List.forall_mem_cons, MetricCall.Labels]
      exact ⟨h, h, driveReading_labels _ now _ _⟩
  · split
    · simp [Driven.skip]
    · simp [MetricCall.Labels]

theorem handleMediaDataOut_labels (heap : List ArcTrack) (origin : ClientId)
    (data : SfuMediaPayload) : ∀ x ∈ (c.handleMediaDataOut heap origin data).2, x.Labels S := by
  unfold Client.handleMediaDataOut
  split_ifs
  · simp [MetricCall.Labels]
  · dsimp only [Client.countForwarded]
    split_ifs <;> split <;> simp [MetricCall.Labels]
  · simp
  · simp

theorem fanoutClient_labels (heap : List ArcTrack) (p : Propagated) :
    ∀ x ∈ (fanoutClient heap now p c).2.1, x.Labels S := by
  cases p with
  | mediaData origin data =>
    simp only [fanoutClient]
    split_ifs
    · simp
    · exact handleMediaDataOut_labels c heap origin data
  | keyframeRequest | trackOpen | activeSpeakerChanged =>
    simp only [fanoutClient]
    split_ifs <;> simp
  | _ => simp [fanoutClient]

theorem pollOutput_labels (heap : List ArcTrack) (addr : WeakTrack) (x : PollResult) :
    ∀ call ∈ (c.pollOutput heap addr now x).2.2, call.Labels S := by
  have hthrottled : ∀ mid rid kind, ∀ call ∈ (c.requestKeyframeThrottled now mid rid kind).2,
      call.Labels S := by
    intro mid rid kind
    unfold Client.requestKeyframeThrottled
    repeat' split
    all_goals simp [MetricCall.Labels]
  unfold Client.pollOutput
  split
  · rcases x with - | - | t | e
    · simp
    · simp
    · simp
    · cases e with
      | mediaData data =>
        simp only [Client.handleEvent, Client.trackInMedia]
        intro call hcall
        rcases List.mem_append.mp hcall with hcall | hcall
        · split at hcall
          · cases hcall
          · exact hthrottled _ _ _ call hcall
        · rw [List.mem_singleton.mp hcall]
          trivial
      | keyframeRequest req =>
        simp only [Client.handleEvent, Client.incomingKeyframeReq]
        repeat' split
        all_goals simp [MetricCall.Labels]
      | _ => simp [Client.handleEvent]
  · simp

end Client

namespace Registry
variable {D : Type*} {S : ℕ → Prop} (F : Features) (now : Instant)

theorem updatePacerLayers_grows (r : Registry D) (hS : ∀ id ∈ r.ids, S id.raw)
    (origin : ClientId) : r.metrics.Grows S (r.updatePacerLayers origin now).metrics := by
  refine SfuMetrics.grows_calls (fun x hx => ?_) r.metrics
  obtain ⟨d, hd, hxd⟩ := List.mem_flatMap.mp hx
  obtain ⟨c, hc, rfl⟩ := List.mem_map.mp hd
  exact driveSubscriber_labels c now (hS c.id (List.mem_map_of_mem hc)) r.bandwidth origin x hxd

theorem fanout_grows (r : Registry D) (p : Propagated) :
    r.metrics.Grows S (r.fanout now p).metrics := by
  refine SfuMetrics.grows_calls (fun x hx => ?_) r.metrics
  obtain ⟨c, -, hxc⟩ := List.mem_flatMap.mp hx
  exact fanoutClient_labels c now r.heap p x hxc

theorem fanoutEvent_grows (r : Registry D) (hS : ∀ id ∈ r.ids, S id.raw) (p : Propagated) :
    r.metrics.Grows S (r.fanoutEvent F now p).metrics := by
  unfold fanoutEvent
  split
  · split_ifs
    · exact .refl _
    · exact fanout_grows now r _
  · split_ifs
    · exact (updatePacerLayers_grows now r hS _).trans (fanout_grows now _ _)
    · exact fanout_grows now r _
  · exact fanout_grows now r _

theorem fanoutPending_grows (r : Registry D) (hS : ∀ id ∈ r.ids, S id.raw) :
    r.metrics.Grows S (r.fanoutPending F now).metrics := by
  refine (fanoutPending_invariant F now
    (P := fun s => s.badges = r.badges ∧ r.metrics.Grows S s.metrics) ?_ ⟨rfl, .refl _⟩).2
  rintro s ⟨hb, hg⟩
  refine ⟨(fanoutStep_badges F now s).trans hb, hg.trans ?_⟩
  rw [← ids_of_badges hb] at hS
  unfold fanoutStep
  split
  · exact .refl _
  · rename_i p rest hq
    exact fanoutEvent_grows F now { s with toPropagate := rest } hS p

section Poll
variable [ActiveSpeakerDetector D]

theorem handlePolled_grows (clock : Instant) (i : ℕ) (c : Client) (st : PollState D)
    {x : PollResult} {p : Propagated} (hp : Client.Polled c.id x p) (hS : S c.id.raw) :
    st.reg.metrics.Grows S (handlePolled F now clock i c st p).1.reg.metrics := by
  have hlevel : ∀ p, (st.reg.recordPolledLevel F clock c p).metrics = st.reg.metrics := by
    intro p
    obtain ⟨_, h⟩ := recordPolledLevel_eq F clock c st.reg p
    rw [h]
  cases hp with
  | bandwidthEstimate bps =>
    have hbwe : st.reg.metrics.Grows S
        (st.reg.metrics.call (.withLabelValues .bandwidthEstimateBps c.id.raw)) :=
      SfuMetrics.grows_call (c := .withLabelValues _ _) hS _
    simp only [handlePolled]
    split_ifs
    · exact hbwe
    · exact hbwe.trans (SfuMetrics.grows_calls (driveReading_labels c clock bps none) _)
    · exact hbwe
  | rtcpStats stats =>
    refine SfuMetrics.grows_calls (fun y hy => ?_) _
    simp only [updatePeerRtcp, List.mem_cons, List.not_mem_nil, or_false] at hy
    rcases hy with rfl | rfl | rfl <;> exact hS
  | noop => exact .refl _
  | timeout t => exact .refl _
  | _ =>
    simp only [handlePolled, push, hlevel]
    exact .refl _

theorem pollStep_grows (i : ℕ) (st : PollState D) (x : Instant × PollResult)
    (hS : ∀ id ∈ st.reg.ids, S id.raw) :
    st.reg.metrics.Grows S (pollStep F now i st x).1.reg.metrics := by
  unfold pollStep
  cases hc : st.reg.clients[i]? with
  | none => exact .refl _
  | some c =>
    dsimp only
    split_ifs
    · have hid : (c.pollOutput st.reg.heap st.nextAlloc x.1 x.2).1.id = c.id :=
        congrArg Prod.fst (pollOutput_badge c x.1 st.reg.heap st.nextAlloc x.2)
      have hpolled := c.pollOutput_polled st.reg.heap st.nextAlloc x.1 x.2
      have hcalls := pollOutput_labels (S := S) c x.1 st.reg.heap st.nextAlloc x.2
      have hmem : S c.id.raw := hS c.id (List.mem_map_of_mem (List.mem_of_getElem? hc))
      generalize c.pollOutput st.reg.heap st.nextAlloc x.1 x.2 = q at hid hpolled hcalls
      rw [← hid] at hpolled hmem
      refine (SfuMetrics.grows_calls hcalls st.reg.metrics).trans ?_
      exact handlePolled_grows F now x.1 i q.1
        { st with reg := { st.reg with clients := st.reg.clients.set i q.1
                                       metrics := st.reg.metrics.calls q.2.2 }
                  nextAlloc := st.nextAlloc + 1 } hpolled hmem
    · exact .refl _

theorem pollAll_grows (r : Registry D) (hS : ∀ id ∈ r.ids, S id.raw) (feed : Feed)
    (nextAlloc : WeakTrack) : r.metrics.Grows S (r.pollAll F now feed nextAlloc).reg.metrics := by
  let P (st : PollState D) : Prop := st.reg.badges = r.badges ∧ r.metrics.Grows S st.reg.metrics
  have hrun : P (r.pollAll F now feed nextAlloc) := by
    refine pollAll_invariant F now feed ?_ (fun _ _ _ h => h) ⟨rfl, .refl _⟩
    rintro i st c x - - - ⟨hb, hg⟩
    refine ⟨(pollStep_badges F now i st x).trans hb, hg.trans (pollStep_grows F now i st x ?_)⟩
    rw [ids_of_badges hb]
    exact hS
  exact hrun.2

theorem insert_metrics (r : Registry D) (c : Client) :
    (r.insert F now c).metrics = r.metrics.calls
      [.withLabelValues .videoFramesDropped c.id.raw, .inc .clientConnect,
        .incActiveParticipants] := by
  simp only [insert, registerSpeaker, announceExisting_eq]
  by_cases hF : F.activeSpeaker = true
  · simp only [hF, if_true]
  · simp only [hF]
    rfl

theorem insert_grows (r : Registry D) (c : Client) (hS : S c.id.raw) :
    r.metrics.Grows S (r.insert F now c).metrics := by
  rw [insert_metrics]
  exact SfuMetrics.grows_calls (by simpa [MetricCall.Labels] using hS) _

theorem tickSpeakerScores_grows (r : Registry D)
    (hS : ∀ s ∈ ActiveSpeakerDetector.peerScores r.detector, S s.1) :
    r.metrics.Grows S r.tickSpeakerScores.metrics := by
  refine SfuMetrics.grows_calls (fun x hx => ?_) _
  obtain ⟨s, hs, hxs⟩ := List.mem_flatMap.mp hx
  have hpeer := hS s hs
  simp only [updatePeerSpeakerScores, List.mem_cons, List.not_mem_nil, or_false] at hxs
  rcases hxs with rfl | rfl | rfl <;> exact hpeer

/-- The sweep removes the series of the dead clients and no others. -/
theorem mem_series_reapDead (r : Registry D) (s : PeerSeries × ℕ) :
    s ∈ (r.reapDead F).metrics.series ↔
      s ∈ r.metrics.series ∧ ∀ c ∈ r.clients, c.isAlive = false → c.id.raw ≠ s.2 := by
  have hfold : ∀ (dead : List Client) (m : SfuMetrics),
      s ∈ (m.calls (dead.flatMap fun c =>
        [.inc .clientDisconnect, .decActiveParticipants, .reapDeadPeer c.id.raw])).series ↔
      s ∈ m.series ∧ ∀ c ∈ dead, c.id.raw ≠ s.2 := by
    intro dead
    induction dead with
    | nil => simp [SfuMetrics.calls]
    | cons c rest ih =>
      intro m
      have hcons : m.calls ((c :: rest).flatMap fun c =>
          [.inc .clientDisconnect, .decActiveParticipants, .reapDeadPeer c.id.raw]) =
          ((m.call (.inc .clientDisconnect)).call .decActiveParticipants |>.call
            (.reapDeadPeer c.id.raw)).calls (rest.flatMap fun c =>
              [.inc .clientDisconnect, .decActiveParticipants, .reapDeadPeer c.id.raw]) := rfl
      rw [hcons, ih]
      simp only [SfuMetrics.call, List.mem_filter, decide_eq_true_eq, List.forall_mem_cons]
      rw [and_assoc, ne_comm]
  simp only [reapDead, hfold, List.mem_filter, Bool.not_eq_true']
  exact and_congr_right fun _ => ⟨fun h c hc ha => h c ⟨hc, ha⟩, fun h c hc => h c hc.1 hc.2⟩

end Poll
end Registry
end SfuKit
