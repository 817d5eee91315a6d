import SfuKit.Model.Client

/-! # What the client's handlers leave alone

One equation for each handler says which fields it writes; the projections of
the state that later proofs need follow from it.
-/
namespace SfuKit.Client

variable (c : Client) (heap : List ArcTrack) (addr : WeakTrack) (now : Instant)

theorem markKeyframeRequest_id (mid : SfuMid) (l : List TrackInEntry) :
    (markKeyframeRequest mid now l).map (·.id) = l.map (·.id) := by
  induction l with
  | nil => rfl
  | cons e rest ih =>
    unfold markKeyframeRequest
    split_ifs
    · rfl
    · simp only [List.map_cons, ih]

/-- A throttled request writes the connection's log and the throttle clocks. -/
theorem requestKeyframeThrottled_eq (mid : SfuMid) (rid : Option SfuRid) (kind : SfuKeyframeKind) :
    ∃ calls tracksIn, (c.requestKeyframeThrottled now mid rid kind).1 =
        { c with rtc := { c.rtc with keyframeCalls := calls }, tracksIn } ∧
      tracksIn.map (·.id) = c.arcs := by
  unfold requestKeyframeThrottled
  split
  · split
    · exact ⟨_, _, rfl, rfl⟩
    · exact ⟨_, _, rfl, markKeyframeRequest_id now mid c.tracksIn⟩
  · exact ⟨_, _, rfl, rfl⟩

/-- An inbound packet leaves the set of tracks and every forwarding decision alone. -/
theorem trackInMedia_eq (data : MediaData) :
    ∃ calls tracksIn activeRids, (c.trackInMedia now data).1 =
        { c with rtc := { c.rtc with keyframeCalls := calls }, tracksIn, activeRids } ∧
      tracksIn.map (·.id) = c.arcs := by
  unfold trackInMedia
  cases data.contiguous with
  | true => cases data.rid <;> exact ⟨_, _, _, rfl, rfl⟩
  | false =>
    simp only [Bool.false_eq_true, if_false]
    cases data.rid with
    | none =>
      obtain ⟨_, _, h, ha⟩ := c.requestKeyframeThrottled_eq now data.mid none .fir
      exact ⟨_, _, _, h, ha⟩
    | some rid =>
      obtain ⟨_, _, h, ha⟩ := c.requestKeyframeThrottled_eq now data.mid (some rid) .fir
      rw [h]
      exact ⟨_, _, _, rfl, ha⟩

@[simp] theorem trackInMedia_event (data : MediaData) :
    (c.trackInMedia now data).2.1 = .mediaData c.id (.fromStr0m data) := by
  obtain ⟨_, _, _, h, -⟩ := c.trackInMedia_eq now data
  have hid : (c.trackInMedia now data).1.id = c.id := by rw [h]
  rw [← hid]
  rfl

/-- The fields a poll can write. -/
theorem pollOutput_eq (x : PollResult) :
    ∃ rtc tracksIn activeRids midToKind, (c.pollOutput heap addr now x).1 =
      { c with rtc, tracksIn, activeRids, midToKind } := by
  unfold pollOutput
  split
  · rcases x with - | - | t | e
    · exact ⟨_, _, _, _, rfl⟩
    · exact ⟨_, _, _, _, rfl⟩
    · exact ⟨_, _, _, _, rfl⟩
    · cases e with
      | mediaData data =>
        obtain ⟨_, _, _, h, -⟩ := c.trackInMedia_eq now data
        exact ⟨_, _, _, c.midToKind, h⟩
      | _ => exact ⟨_, _, _, _, rfl⟩
  · exact ⟨_, _, _, _, rfl⟩

/-- A request goes nowhere, or to the track behind the entry with its mid. -/
theorem incomingKeyframeReq_cases (req : SfuKeyframeRequest) :
    (c.incomingKeyframeReq heap req).1 = .noop ∨
    ∃ o ∈ c.tracksOut, ∃ t, upgrade heap o.trackIn = some t ∧
      (c.incomingKeyframeReq heap req).1 =
        if t.relaySource then .upstreamKeyframeRequest t.origin { req with rid := c.chosenRid } t.mid
        else .keyframeRequest c.id { req with rid := c.chosenRid } t.origin t.mid := by
  unfold incomingKeyframeReq
  cases ho : c.tracksOut.find? fun t => t.mid = some req.mid with
  | none => exact .inl rfl
  | some o =>
    cases ht : upgrade heap o.trackIn with
    | none => left; simp only [ht]
    | some t =>
      right
      refine ⟨o, List.mem_of_find?_eq_some ho, t, ht, ?_⟩
      simp only [ht]
      split_ifs <;> rfl

/-- A poll either opens one track, and says so, or leaves the set of tracks alone. -/
theorem pollOutput_arcs (x : PollResult) :
    (∃ mid kind, x = some (.event (.mediaAdded mid kind)) ∧
      (c.pollOutput heap addr now x).1.arcs =
        c.arcs ++ [⟨addr, ⟨c.id, mid, kind, c.isRelay⟩⟩] ∧
      (c.pollOutput heap addr now x).2.1 = .trackOpen c.id addr) ∨
    ((c.pollOutput heap addr now x).1.arcs = c.arcs ∧
      ∀ o w, (c.pollOutput heap addr now x).2.1 ≠ .trackOpen o w) := by
  unfold pollOutput
  split
  · rcases x with - | - | t | e
    · exact .inr ⟨rfl, fun _ _ => by simp⟩
    · exact .inr ⟨rfl, fun _ _ => by simp⟩
    · exact .inr ⟨rfl, fun _ _ => by simp⟩
    · cases e with
      | mediaAdded mid kind =>
        refine .inl ⟨mid, kind, rfl, ?_, rfl⟩
        simp [handleEvent, trackInAdded, arcs, isRelay]
      | mediaData data =>
        obtain ⟨_, _, _, h, ha⟩ := c.trackInMedia_eq now data
        refine .inr ⟨?_, fun _ _ => by simp [handleEvent]⟩
        simp only [handleEvent, h]
        exact ha
      | keyframeRequest req =>
        refine .inr ⟨rfl, fun _ _ => ?_⟩
        simp only [handleEvent]
        rcases c.incomingKeyframeReq_cases heap req with h | ⟨_, _, _, _, h⟩ <;> rw [h]
        · simp
        · split_ifs <;> simp
      | _ => exact .inr ⟨rfl, fun _ _ => by simp [handleEvent, propagateBwe, propagatePeerStats]⟩
  · exact .inr ⟨rfl, fun _ _ => by simp⟩

/-- The events a poll can return; each names the polled client as its origin, but
for an upstream keyframe request. -/
inductive Polled (id : ClientId) (x : PollResult) : Propagated → Prop
  | noop : Polled id x .noop
  | timeout (t) : Polled id x (.timeout t)
  | trackOpen (w) : Polled id x (.trackOpen id w)
  | mediaData (d) (h : x = some (.event (.mediaData d))) : Polled id x (.mediaData id (.fromStr0m d))
  | keyframeRequest (req source mid) : Polled id x (.keyframeRequest id req source mid)
  | upstreamKeyframeRequest (source req mid) : Polled id x (.upstreamKeyframeRequest source req mid)
  | bandwidthEstimate (bps) : Polled id x (.bandwidthEstimate id bps)
  | rtcpStats (stats) : Polled id x (.rtcpStats id stats)

theorem pollOutput_polled (x : PollResult) :
    Polled c.id x (c.pollOutput heap addr now x).2.1 := by
  unfold pollOutput
  split
  · rcases x with - | - | t | e
    · exact .noop
    · exact .noop
    · exact .timeout t
    · cases e with
      | iceDisconnected => exact .noop
      | mediaAdded mid kind => exact .trackOpen addr
      | mediaData data =>
        simp only [handleEvent, trackInMedia_event]
        exact .mediaData data rfl
      | keyframeRequest req =>
        simp only [handleEvent]
        rcases c.incomingKeyframeReq_cases heap req with h | ⟨_, _, _, _, h⟩ <;> rw [h]
        · exact .noop
        · split_ifs
          · exact .upstreamKeyframeRequest _ _ _
          · exact .keyframeRequest _ _ _
      | egressBitrateEstimate bwe => exact .bandwidthEstimate _
      | peerStats loss rtt => exact .rtcpStats _
      | other => exact .noop
  · exact .noop

/-- The fields the fanout of a packet can write. -/
theorem handleMediaDataOut_eq (origin : ClientId) (data : SfuMediaPayload) :
    ∃ rtc chosenRid deliveredMedia, (c.handleMediaDataOut heap origin data).1 =
      { c with rtc, chosenRid, deliveredMedia } := by
  unfold handleMediaDataOut
  split_ifs
  · exact ⟨_, _, _, rfl⟩
  · dsimp only [countForwarded, writeOut]
    split
    · exact ⟨_, _, _, rfl⟩
    · split_ifs
      all_goals
        split
        · exact ⟨_, _, _, rfl⟩
        · split_ifs <;> exact ⟨_, _, _, rfl⟩
  · exact ⟨_, _, _, rfl⟩
  · exact ⟨_, _, _, rfl⟩

/-- The counter sees exactly the packets that pass all filters. -/
def passesFilters (origin : ClientId) (data : SfuMediaPayload) : Bool :=
  !(c.suspended && c.isVideoTrack heap origin data.mid) && c.layerAccepts data &&
    c.temporalAccepts data

@[simp] theorem writeOut_deliveredMedia (origin : ClientId) (data : SfuMediaPayload) :
    (c.writeOut heap origin data).deliveredMedia = c.deliveredMedia := by
  unfold writeOut
  split
  · rfl
  · dsimp only
    split_ifs
    all_goals
      split
      · rfl
      · split_ifs <;> rfl

theorem handleMediaDataOut_deliveredMedia (origin : ClientId) (data : SfuMediaPayload) :
    (c.handleMediaDataOut heap origin data).1.deliveredMedia =
      c.deliveredMedia + if c.passesFilters heap origin data then 1 else 0 := by
  unfold handleMediaDataOut passesFilters
  cases c.suspended && c.isVideoTrack heap origin data.mid with
  | true => rfl
  | false =>
    cases c.layerAccepts data with
    | false => rfl
    | true =>
      cases c.temporalAccepts data with
      | false => rfl
      | true => simp [countForwarded]

theorem drivePacer_eq (bps : ℕ) : ∃ desiredLayer chosenRid, (c.drivePacer bps).1 =
    { c with pacer := (c.pacer.update bps).1, desiredLayer, chosenRid } := by
  unfold drivePacer
  dsimp only
  split <;> exact ⟨_, _, rfl⟩

@[simp] theorem drivePacer_action (bps : ℕ) :
    (c.drivePacer bps).2 = (c.pacer.update bps).2 := by
  unfold drivePacer
  dsimp only
  split <;> rfl

end SfuKit.Client
