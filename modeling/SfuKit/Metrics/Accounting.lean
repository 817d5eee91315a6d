import SfuKit.Forwarding.ExactlyOnce
import SfuKit.Metrics.Series

/-! # The books of the room

The participants gauge counts the clients of the room, connections and disconnections balance
it, and what the forwarding counters say is exactly what the deliveries of the run amount to.
-/
namespace SfuKit

open Library

/-- The counters that a delivery can move. -/
def Counter.isForwarding : Counter → Bool
  | .forwardedPackets _ | .trackBytes .outbound _ _ | .layerSelection _ | .videoFramesDropped _ =>
    true
  | _ => false

/-- The counters that an admission or a release moves. -/
def Counter.isCensus : Counter → Bool
  | .clientConnect | .clientDisconnect => true
  | _ => false

/-- The forwarding counters that some calls move, in order. -/
def forwarding (l : List MetricCall) : List Counter :=
  l.filterMap fun
    | .inc c => if c.isForwarding then some c else none
    | _ => none

/-- The calls that leave the census alone. -/
def MetricCall.isTraffic : MetricCall → Bool
  | .inc c => !c.isCensus
  | .withLabelValues .. => true
  | _ => false

/-- The calls that leave the forwarding counters alone as well. -/
def MetricCall.isPlain : MetricCall → Bool
  | .inc c => !c.isCensus && !c.isForwarding
  | .withLabelValues .. => true
  | _ => false

/-- What a delivery owes to the counters: a packet that a suspended subscriber is spared, or
one that passes the filters, with its bytes and its layer. -/
def Obs.counts : Obs → List Counter
  | .delivery before _ heap origin data =>
    let label := before.kindLabel heap origin data.mid
    if before.suspended && before.isVideoTrack heap origin data.mid then
      [.videoFramesDropped before.id.raw]
    else if before.layerAccepts data && before.temporalAccepts data then
      .forwardedPackets label ::
        ((if label = .other then [] else [.trackBytes .outbound label data.data.length]) ++
          (data.rid.map fun rid => .layerSelection (ridLabel rid)).toList)
    else []
  | .advance .. | .sample .. => []

namespace SfuMetrics

/-- The forwarding counters moved so far, in order. -/
def forwarded (m : SfuMetrics) : List Counter := (m.increments.filter Counter.isForwarding).reverse

def census (m : SfuMetrics) : ℤ × ℕ × ℕ :=
  (m.activeParticipants, m.increments.count .clientConnect, m.increments.count .clientDisconnect)

theorem calls_cons (m : SfuMetrics) (x : MetricCall) (l : List MetricCall) :
    m.calls (x :: l) = (m.call x).calls l := rfl

@[simp] theorem call_inc (m : SfuMetrics) (c : Counter) :
    m.call (.inc c) = { m with increments := c :: m.increments } := rfl

@[simp] theorem call_incActiveParticipants (m : SfuMetrics) : m.call .incActiveParticipants =
    { m with activeParticipants := m.activeParticipants + 1 } := rfl

@[simp] theorem call_decActiveParticipants (m : SfuMetrics) : m.call .decActiveParticipants =
    { m with activeParticipants := m.activeParticipants - 1 } := rfl

@[simp] theorem call_reapDeadPeer (m : SfuMetrics) (n : ℕ) : m.call (.reapDeadPeer n) =
    { m with series := m.series.filter fun s => s.2 ≠ n } := rfl

@[simp] theorem call_withLabelValues_increments (m : SfuMetrics) (s : PeerSeries) (n : ℕ) :
    (m.call (.withLabelValues s n)).increments = m.increments := by
  simp only [call]
  split_ifs <;> rfl

@[simp] theorem call_withLabelValues_activeParticipants (m : SfuMetrics) (s : PeerSeries) (n : ℕ) :
    (m.call (.withLabelValues s n)).activeParticipants = m.activeParticipants := by
  simp only [call]
  split_ifs <;> rfl

theorem forwarded_calls (m : SfuMetrics) (l : List MetricCall) :
    (m.calls l).forwarded = m.forwarded ++ forwarding l := by
  induction l generalizing m with
  | nil => exact (List.append_nil _).symm
  | cons x l ih =>
    have hone : (m.call x).forwarded = m.forwarded ++ forwarding [x] := by
      cases x with
      | inc c =>
        by_cases hc : c.isForwarding = true
        · simp [forwarded, forwarding, hc]
        · simp [forwarded, forwarding, hc]
      | withLabelValues s n => simp [forwarded, forwarding]
      | _ => exact (List.append_nil _).symm
    have hcons : forwarding (x :: l) = forwarding [x] ++ forwarding l :=
      List.filterMap_append (l := [x])
    rw [calls_cons, ih, hone, hcons, List.append_assoc]

theorem census_calls (m : SfuMetrics) {l : List MetricCall} (h : ∀ x ∈ l, x.isTraffic = true) :
    (m.calls l).census = m.census := by
  induction l generalizing m with
  | nil => rfl
  | cons x l ih =>
    obtain ⟨hx, hl⟩ := List.forall_mem_cons.mp h
    rw [calls_cons, ih _ hl]
    cases x with
    | inc c =>
      have hc : c.isCensus = false := by simpa [MetricCall.isTraffic] using hx
      have hne : c ≠ .clientConnect ∧ c ≠ .clientDisconnect := by
        constructor <;> rintro rfl <;> cases hc
      simp [census, hne.1, hne.2]
    | withLabelValues s n => simp [census]
    | _ => cases hx

end SfuMetrics

theorem forwarding_append (l l' : List MetricCall) :
    forwarding (l ++ l') = forwarding l ++ forwarding l' := List.filterMap_append

theorem forwarding_flatMap {α : Type*} (l : List α) (f : α → List MetricCall) :
    forwarding (l.flatMap f) = l.flatMap fun a => forwarding (f a) := by
  induction l with
  | nil => rfl
  | cons a l ih => rw [List.flatMap_cons, forwarding_append, ih, List.flatMap_cons]

theorem MetricCall.traffic_of_isPlain {x : MetricCall} (h : x.isPlain = true) :
    x.isTraffic = true := by
  cases x with
  | inc c => exact (Bool.and_eq_true_iff.mp h).1
  | withLabelValues => rfl
  | _ => cases h

theorem forwarding_of_isPlain {l : List MetricCall} (h : ∀ x ∈ l, x.isPlain = true) :
    forwarding l = [] := by
  apply List.filterMap_eq_nil_iff.mpr
  intro x hx
  have hplain := h x hx
  cases x with
  | inc c =>
    have hc : c.isForwarding = false := by simpa using (Bool.and_eq_true_iff.mp hplain).2
    simp [hc]
  | _ => rfl

section Client
variable (c : Client) (now : Instant)

theorem driveReading_isPlain (bps : ℕ) (signals : Option PerSubscriber) :
    ∀ x ∈ (driveReading c now bps signals).calls, x.isPlain = true := by
  simp only [driveReading]
  cases (applyPacerAction (c.drivePacer bps).2 c.id).2 with
  | none => simp
  | some b => simp [MetricCall.isPlain, Counter.isCensus, Counter.isForwarding]

theorem driveSubscriber_isPlain (b : BandwidthEstimator) (origin : ClientId) :
    ∀ x ∈ (driveSubscriber b origin now c).calls, x.isPlain = true := by
  unfold driveSubscriber
  rw [pacerTickReady_eq]
  split_ifs
  · simp [Driven.skip]
  · split
    · simp [Driven.skip]
    · simp only [List.forall_mem_cons]
      exact ⟨rfl, rfl, driveReading_isPlain _ now _ _⟩
  · split
    · simp [Driven.skip]
    · simp [MetricCall.isPlain, Counter.isCensus, Counter.isForwarding]

theorem driveSubscriber_counts (b : BandwidthEstimator) (origin : ClientId) :
    (driveSubscriber b origin now c).history.flatMap Obs.counts = [] := by
  rcases driveSubscriber_cases c now b origin with ⟨-, -, h⟩ | ⟨sub, -, -, -, -, -, h⟩
  · rw [h]
    rfl
  · rw [h, driveReading_history]
    rfl

theorem pollOutput_isPlain (heap : List ArcTrack) (addr : WeakTrack) (x : PollResult) :
    ∀ call ∈ (c.pollOutput heap addr now x).2.2, call.isPlain = true := by
  have hthrottled : ∀ mid rid kind, ∀ call ∈ (c.requestKeyframeThrottled now mid rid kind).2,
      call.isPlain = true := by
    intro mid rid kind
    unfold Client.requestKeyframeThrottled
    repeat' split
    all_goals simp [MetricCall.isPlain, Counter.isCensus, Counter.isForwarding]
  unfold Client.pollOutput
  split
  · rcases x with - | - | t | e
    · simp
    · simp
    · simp
    · cases e with
      | mediaData data =>
        simp only [Client.handleEvent, Client.trackInMedia]
        intro call hcall
        rcases List.mem_append.mp hcall with hcall | hcall
        · split at hcall
          · cases hcall
          · exact hthrottled _ _ _ call hcall
        · rw [List.mem_singleton.mp hcall]
          rfl
      | keyframeRequest req =>
        simp only [Client.handleEvent, Client.incomingKeyframeReq]
        repeat' split
        all_goals simp [MetricCall.isPlain, Counter.isCensus, Counter.isForwarding]
      | _ => simp [Client.handleEvent]
  · simp

theorem handleMediaDataOut_calls (heap : List ArcTrack) (origin : ClientId)
    (data : SfuMediaPayload) : (∀ x ∈ (c.handleMediaDataOut heap origin data).2,
        x.isTraffic = true) ∧
      forwarding (c.handleMediaDataOut heap origin data).2 =
        Obs.counts (.delivery c (c.handleMediaDataOut heap origin data).1 heap origin data) := by
  unfold Client.handleMediaDataOut
  simp only [Obs.counts]
  by_cases hs : (c.suspended && c.isVideoTrack heap origin data.mid) = true
  · rw [if_pos hs, if_pos hs]
    simp [MetricCall.isTraffic, Counter.isCensus, forwarding, Counter.isForwarding]
  · rw [if_neg hs, if_neg hs]
    by_cases hl : c.layerAccepts data = true
    · by_cases ht : c.temporalAccepts data = true
      · rw [if_pos hl, if_pos ht, hl, ht, Bool.and_self, if_pos rfl]
        simp only [Client.countForwarded]
        cases data.rid <;> by_cases hk : c.kindLabel heap origin data.mid = .other <;>
          simp [MetricCall.isTraffic, Counter.isCensus, forwarding, Counter.isForwarding, hk]
      · rw [if_pos hl, if_neg ht]
        simp [forwarding, ht]
    · rw [if_neg hl]
      simp [forwarding, hl]

theorem fanoutClient_calls (heap : List ArcTrack) (p : Propagated) :
    (∀ x ∈ (fanoutClient heap now p c).2.1, x.isTraffic = true) ∧
      forwarding (fanoutClient heap now p c).2.1 = (deliveries heap [c] p).flatMap Obs.counts := by
  have hnone : (∀ x ∈ ([] : List MetricCall), x.isTraffic = true) ∧
      forwarding [] = ([] : List Obs).flatMap Obs.counts := ⟨by simp, rfl⟩
  cases p with
  | mediaData origin data =>
    simp only [fanoutClient, deliveries]
    by_cases ho : c.id = origin
    · simpa [ho] using hnone
    · simpa [ho] using handleMediaDataOut_calls c heap origin data
  | keyframeRequest | trackOpen | activeSpeakerChanged =>
    simp only [fanoutClient]
    split_ifs <;> exact hnone
  | _ => exact hnone

end Client

/-- The census stands, and the forwarding counters have moved by what the new entries of the
history owe. -/
structure Registry.Books {D : Type*} (r r' : Registry D) : Prop where
  census : r'.metrics.census = r.metrics.census
  entries : ∃ obs, r'.history = r.history ++ obs ∧
    r'.metrics.forwarded = r.metrics.forwarded ++ obs.flatMap Obs.counts

namespace Registry
variable {D : Type*} (F : Features) (now : Instant)

theorem Books.refl (r : Registry D) : r.Books r := ⟨rfl, [], by simp, by simp⟩

theorem Books.trans {r r' r'' : Registry D} (h : r.Books r') (h' : r'.Books r'') :
    r.Books r'' := by
  obtain ⟨obs, hhistory, hforwarded⟩ := h.entries
  obtain ⟨obs', hhistory', hforwarded'⟩ := h'.entries
  refine ⟨h'.census.trans h.census, obs ++ obs', ?_, ?_⟩
  · rw [hhistory', hhistory, List.append_assoc]
  · rw [hforwarded', hforwarded, List.flatMap_append, List.append_assoc]

theorem Books.of_calls {r r' : Registry D} (calls : List MetricCall) (obs : List Obs)
    (hm : r'.metrics = r.metrics.calls calls) (hh : r'.history = r.history ++ obs)
    (htraffic : ∀ x ∈ calls, x.isTraffic = true)
    (hcounts : forwarding calls = obs.flatMap Obs.counts) : r.Books r' := by
  refine ⟨?_, obs, hh, ?_⟩
  · rw [hm, SfuMetrics.census_calls _ htraffic]
  · rw [hm, SfuMetrics.forwarded_calls, hcounts]

theorem Books.of_plain {r r' : Registry D} (calls : List MetricCall) (obs : List Obs)
    (hm : r'.metrics = r.metrics.calls calls) (hh : r'.history = r.history ++ obs)
    (hplain : ∀ x ∈ calls, x.isPlain = true) (hobs : obs.flatMap Obs.counts = []) :
    r.Books r' := by
  apply Books.of_calls calls obs hm hh
  · exact fun x hx => MetricCall.traffic_of_isPlain (hplain x hx)
  · rw [forwarding_of_isPlain hplain, hobs]

theorem Books.quiet {r r' : Registry D} (calls : List MetricCall)
    (hm : r'.metrics = r.metrics.calls calls) (hh : r'.history = r.history)
    (hplain : ∀ x ∈ calls, x.isPlain = true) : r.Books r' :=
  .of_plain calls [] hm (by rw [hh, List.append_nil]) hplain rfl

theorem Books.same {r r' : Registry D} (hm : r'.metrics = r.metrics)
    (hh : r'.history = r.history) : r.Books r' := .quiet [] hm hh (by simp)

theorem updatePacerLayers_books (r : Registry D) (origin : ClientId) :
    r.Books (r.updatePacerLayers origin now) := by
  apply Books.of_plain _ _ rfl (updatePacerLayers_history r origin now)
  · intro x hx
    obtain ⟨d, hd, hxd⟩ := List.mem_flatMap.mp hx
    obtain ⟨c, -, rfl⟩ := List.mem_map.mp hd
    exact driveSubscriber_isPlain c now r.bandwidth origin x hxd
  · rw [List.flatMap_assoc]
    exact List.flatMap_eq_nil_iff.mpr fun c _ => driveSubscriber_counts c now r.bandwidth origin

theorem fanout_books (r : Registry D) (p : Propagated) : r.Books (r.fanout now p) := by
  apply Books.of_calls _ _ rfl (fanout_history now r p)
  · intro x hx
    obtain ⟨c, -, hxc⟩ := List.mem_flatMap.mp hx
    exact (fanoutClient_calls c now r.heap p).1 x hxc
  · rw [forwarding_flatMap, deliveries_eq, List.flatMap_assoc]
    exact List.flatMap_congr fun c _ => (fanoutClient_calls c now r.heap p).2

theorem fanoutEvent_books (r : Registry D) (p : Propagated) : r.Books (r.fanoutEvent F now p) := by
  cases p with
  | mediaData origin data =>
    simp only [fanoutEvent]
    split_ifs
    · exact (updatePacerLayers_books now r origin).trans (fanout_books now _ _)
    · exact fanout_books now r _
  | clientBudgetHint peer bps =>
    simp only [fanoutEvent]
    split_ifs
    · exact .same rfl rfl
    · exact fanout_books now r _
  | _ => exact fanout_books now r _

theorem fanoutPending_books (r : Registry D) : r.Books (r.fanoutPending F now) := by
  apply fanoutPending_invariant F now (P := fun s => r.Books s)
  · intro s hs
    unfold fanoutStep
    split
    · exact hs
    · next p rest hq =>
      have hpop : s.Books { s with toPropagate := rest } := .same rfl rfl
      exact hs.trans (hpop.trans (fanoutEvent_books F now _ p))
  · exact .refl r

section Poll
variable [ActiveSpeakerDetector D]

theorem handlePolled_books (clock : Instant) (i : ℕ) (c : Client) (st : PollState D)
    (p : Propagated) : st.reg.Books (handlePolled F now clock i c st p).1.reg := by
  obtain ⟨_, hlevel⟩ := recordPolledLevel_eq F clock c st.reg p
  have hbwe : ∀ (peer : ClientId) (r : Registry D), r.history = st.reg.history →
      r.metrics = st.reg.metrics.call (.withLabelValues .bandwidthEstimateBps peer.raw) →
      st.reg.Books r := by
    intro peer r hh hm
    exact .quiet [.withLabelValues .bandwidthEstimateBps peer.raw] hm hh (by simp [MetricCall.isPlain])
  cases p with
  | bandwidthEstimate peer bps =>
    simp only [handlePolled]
    split_ifs
    · exact hbwe peer _ rfl rfl
    · apply Books.trans (hbwe peer { st.reg with
        metrics := st.reg.metrics.call (.withLabelValues .bandwidthEstimateBps peer.raw) } rfl rfl)
      exact .of_plain (driveReading c clock bps none).calls _ rfl rfl
        (driveReading_isPlain c clock bps none) (by rw [driveReading_history]; rfl)
    · exact hbwe peer _ rfl rfl
  | rtcpStats peer stats =>
    exact .quiet (updatePeerRtcp peer.raw) rfl rfl (by simp [updatePeerRtcp, MetricCall.isPlain])
  | timeout t => exact .refl _
  | noop => exact .refl _
  | _ =>
    simp only [handlePolled, hlevel]
    exact .same rfl rfl

theorem pollAll_books (feed : Feed) (nextAlloc : WeakTrack) (r : Registry D) :
    r.Books (r.pollAll F now feed nextAlloc).reg := by
  apply pollAll_invariant F now feed (P := fun st => r.Books st.reg)
  · intro i st c x hc ha _ hst
    apply hst.trans
    unfold pollStep
    rw [hc]
    dsimp only
    rw [if_pos ha]
    have hplain := pollOutput_isPlain c x.1 st.reg.heap st.nextAlloc x.2
    generalize c.pollOutput st.reg.heap st.nextAlloc x.1 x.2 = q at hplain
    have hpolled : st.reg.Books { st.reg with clients := st.reg.clients.set i q.1
                                              metrics := st.reg.metrics.calls q.2.2 } :=
      .quiet q.2.2 rfl rfl hplain
    exact hpolled.trans (handlePolled_books F now x.1 i q.1
      { st with reg := { st.reg with clients := st.reg.clients.set i q.1
                                     metrics := st.reg.metrics.calls q.2.2 }
                nextAlloc := st.nextAlloc + 1 } q.2.1)
  · intro st a s hst
    have hfeed : st.reg.Books (st.reg.feedGoogcc a s) := by
      refine Books.of_plain [] _ rfl rfl (by simp) ?_
      rw [List.flatMap_map]
      exact List.flatMap_eq_nil_iff.mpr fun _ _ => rfl
    exact hst.trans hfeed
  · exact .refl r

end Poll
end Registry

namespace Process
variable {D : Type*} [ActiveSpeakerDetector D] (F : Features)

/-- The gauge, the connections and the disconnections agree with the room, and the forwarding
counters with the deliveries. -/
structure Balanced (p : Process D) : Prop where
  gauge : p.reg.metrics.activeParticipants = p.reg.clients.length
  turnover : p.reg.metrics.increments.count .clientConnect =
    p.reg.metrics.increments.count .clientDisconnect + p.reg.clients.length
  forwarded : p.reg.metrics.forwarded = p.reg.history.flatMap Obs.counts

omit [ActiveSpeakerDetector D] in
theorem Balanced.books {p q : Process D} (h : p.Balanced) (hq : p.reg.Books q.reg)
    (hlength : q.reg.clients.length = p.reg.clients.length) : q.Balanced := by
  obtain ⟨obs, hhistory, hforwarded⟩ := hq.entries
  have hcensus := hq.census
  simp only [SfuMetrics.census, Prod.mk.injEq] at hcensus
  obtain ⟨hgauge, hconnect, hdisconnect⟩ := hcensus
  constructor
  · rw [hgauge, h.gauge, hlength]
  · rw [hconnect, hdisconnect, h.turnover, hlength]
  · rw [hforwarded, hhistory, h.forwarded, List.flatMap_append]

theorem Balanced.insert {p : Process D} (h : p.Balanced) (now : Instant) (c : Client)
    {q : Process D} (hq : q.reg = p.reg.insert F now c) : q.Balanced := by
  have hclients : (p.reg.insert F now c).clients.length = p.reg.clients.length + 1 := by
    rw [Registry.insert_clients, List.length_append, List.length_singleton]
  have hhistory : (p.reg.insert F now c).history = p.reg.history := by
    simp only [Registry.insert]
  have hcalls : p.reg.metrics.calls [.withLabelValues .videoFramesDropped c.id.raw,
      .inc .clientConnect, .incActiveParticipants] =
      ((p.reg.metrics.call (.withLabelValues .videoFramesDropped c.id.raw)).call
        (.inc .clientConnect)).call .incActiveParticipants := rfl
  constructor
  · rw [hq, Registry.insert_metrics, hclients, hcalls]
    simp [h.gauge]
  · rw [hq, Registry.insert_metrics, hclients, hcalls]
    simp [h.turnover]
    omega
  · rw [hq, Registry.insert_metrics, hhistory, SfuMetrics.forwarded_calls, h.forwarded]
    exact List.append_nil _

omit [ActiveSpeakerDetector D] in
theorem release_calls (dead : List Client) (m : SfuMetrics) :
    let m' := m.calls (dead.flatMap fun c =>
      [.inc .clientDisconnect, .decActiveParticipants, .reapDeadPeer c.id.raw])
    m'.activeParticipants = m.activeParticipants - dead.length ∧
      m'.increments.count .clientConnect = m.increments.count .clientConnect ∧
      m'.increments.count .clientDisconnect =
        m.increments.count .clientDisconnect + dead.length ∧
      m'.forwarded = m.forwarded := by
  induction dead generalizing m with
  | nil => simp [SfuMetrics.calls]
  | cons c rest ih =>
    obtain ⟨hgauge, hconnect, hdisconnect, hforwarded⟩ :=
      ih (((m.call (.inc .clientDisconnect)).call .decActiveParticipants).call
        (.reapDeadPeer c.id.raw))
    refine ⟨hgauge.trans ?_, hconnect.trans ?_, hdisconnect.trans ?_, hforwarded.trans ?_⟩
    · simp
      omega
    · simp
    · simp
      omega
    · simp [SfuMetrics.forwarded, Counter.isForwarding]

theorem Balanced.reapDead {p : Process D} (h : p.Balanced) {q : Process D}
    (hq : q.reg = p.reg.reapDead F) : q.Balanced := by
  obtain ⟨hgauge, hconnect, hdisconnect, hforwarded⟩ :=
    release_calls (p.reg.clients.filter fun c => !c.isAlive) p.reg.metrics
  have hsplit : p.reg.clients.length = (p.reg.clients.filter Client.isAlive).length +
      (p.reg.clients.filter fun c => !c.isAlive).length :=
    List.length_eq_length_filter_add Client.isAlive
  have hbalance := h.turnover
  have hgauge' := h.gauge
  constructor
  · rw [hq]
    simp only [Registry.reapDead]
    omega
  · rw [hq]
    simp only [Registry.reapDead]
    omega
  · rw [hq]
    simp only [Registry.reapDead]
    rw [hforwarded, h.forwarded]

omit [ActiveSpeakerDetector D] in
theorem Balanced.same {p q : Process D} (h : p.Balanced) (hmetrics : q.reg.metrics = p.reg.metrics)
    (hhistory : q.reg.history = p.reg.history)
    (hlength : q.reg.clients.length = p.reg.clients.length) : q.Balanced :=
  h.books (.same hmetrics hhistory) hlength

omit [ActiveSpeakerDetector D] in
theorem Balanced.metricsCalls {p q : Process D} (h : p.Balanced) (hq : q.reg = p.reg)
    (handle : MetricsHandle) {calls : List MetricCall} (hplain : ∀ x ∈ calls, x.isPlain = true) :
    (q.metricsCalls handle calls).Balanced := by
  cases handle with
  | throwaway =>
    have hreg : (q.metricsCalls .throwaway calls).reg = p.reg := hq
    exact h.same (by rw [hreg]) (by rw [hreg]) (by rw [hreg])
  | registry =>
    have hreg : (q.metricsCalls .registry calls).reg =
        { p.reg with metrics := p.reg.metrics.calls calls } := by
      simp only [Process.metricsCalls, hq]
    apply h.books
    · rw [hreg]
      exact .quiet calls rfl rfl hplain
    · rw [hreg]

omit [ActiveSpeakerDetector D] in
theorem Balanced.onClient {p : Process D} (h : p.Balanced) (id : ClientId) (f : Client → Client) :
    (p.onClient id f).Balanced :=
  h.same rfl rfl (by simp [Process.onClient, updateClient])

theorem updatePeerSpeakerScores_isPlain (peerId : ℕ) :
    ∀ x ∈ updatePeerSpeakerScores peerId, x.isPlain = true := by
  simp [updatePeerSpeakerScores, MetricCall.isPlain]

theorem balanced_step {p : Process D} (h : p.Balanced) (op : Op) : (p.step F op).Balanced := by
  cases op with
  | clientNew rtc metrics =>
    apply h.metricsCalls
    · rfl
    · simp [MetricCall.isPlain]
  | heldPoll id clock result =>
    simp only [step, heldPoll]
    split
    · exact h
    · apply h.metricsCalls
      · rfl
      · exact pollOutput_isPlain _ clock p.reg.heap p.nextAlloc result
  | setOrigin id origin => exact h.onClient id _
  | setDesiredLayer id rid => exact h.onClient id _
  | connection id alive writers => exact h.onClient id _
  | dropHeld id =>
    simp only [step, dropHeld]
    split
    · exact h
    · exact h.same rfl rfl rfl
  | insert id now =>
    simp only [step, insert]
    split
    · exact h
    · exact Balanced.insert F h now _ rfl
  | pollAll now feed =>
    apply h.books (Registry.pollAll_books F now feed p.nextAlloc p.reg)
    exact Registry.length_of_badges (Registry.pollAll_badges F now feed p.nextAlloc p.reg)
  | fanoutPending now =>
    apply h.books (Registry.fanoutPending_books F now p.reg)
    exact Registry.length_of_badges (Registry.fanoutPending_badges F now p.reg)
  | updatePacerLayers origin now =>
    simp only [step]
    split_ifs
    · apply h.books (Registry.updatePacerLayers_books now p.reg origin)
      exact Registry.length_of_badges (Registry.updatePacerLayers_badges now p.reg origin)
    · exact h
  | reapDead => exact Balanced.reapDead F h rfl
  | tickActiveSpeaker now =>
    simp only [step]
    split_ifs
    · simp only [Registry.tickActiveSpeaker]
      split
      · refine h.books (.quiet [.inc .dominantSpeakerChanges] rfl rfl ?_) rfl
        simp [MetricCall.isPlain, Counter.isCensus, Counter.isForwarding]
      · exact h.same rfl rfl rfl
    · exact h
  | tickSpeakerScores =>
    simp only [step]
    split_ifs
    · refine h.books (.quiet _ rfl rfl ?_) rfl
      intro x hx
      obtain ⟨s, -, hs⟩ := List.mem_flatMap.mp hx
      exact updatePeerSpeakerScores_isPlain s.1 x hs
    · exact h
  | recordAudioLevel peerId levelRaw now =>
    simp only [step, Registry.recordAudioLevel]
    split_ifs
    · exact h.same rfl rfl rfl
    · exact h.same rfl rfl rfl
    · exact h
  | emitPublisherLayerHints | clientBudgetHint => exact h.same rfl rfl rfl
  | _ =>
    simp only [step]
    split_ifs
    · exact h.same rfl rfl rfl
    · exact h

theorem balanced_run (now : Instant) (ops : List Op) :
    (run F (start now : Process D) ops).Balanced := by
  have hstep : ∀ (p : Process D) (op : Op), p.Balanced → (p.step F op).Balanced :=
    fun _ op h => balanced_step F h op
  exact Run.invariant_all hstep ops ⟨rfl, rfl, rfl⟩

/-- In every state of every run the participants gauge is the number of connected clients, and
as many have connected as have been reaped and are left. -/
theorem participants_run (now : Instant) (ops : List Op) :
    let p : Process D := run F (start now) ops
    p.reg.metrics.activeParticipants = p.reg.clients.length ∧
      p.reg.metrics.increments.count .clientConnect =
        p.reg.metrics.increments.count .clientDisconnect + p.reg.clients.length :=
  ⟨(balanced_run F now ops).gauge, (balanced_run F now ops).turnover⟩

/-- In every state of every run the forwarding counters have moved by exactly what the
deliveries of the run owe, in their order. -/
theorem forwarded_run (now : Instant) (ops : List Op) :
    let p : Process D := run F (start now) ops
    p.reg.metrics.forwarded = p.reg.history.flatMap Obs.counts :=
  (balanced_run F now ops).forwarded

end Process
end SfuKit
