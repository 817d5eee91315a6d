import SfuKit.Estimator.Components
import SfuKit.Estimator.Samples
import SfuKit.Server.Turns

/-! # What the process tells the estimator

Every call of the process comes down to calls of the estimator that are known beforehand: from
its arguments, from the hints in the queue, from what str0m returns to the polls, and from who is
dead. So the estimator of a process is the estimator after these calls, and an estimate is what
they say of its subscriber.
-/
namespace SfuKit

open Library Run

/-- The call that a budget hint comes down to when it leaves the queue. -/
def Propagated.hintCall (now : Instant) : Propagated → Option EstimatorCall
  | .clientBudgetHint id bps => some ⟨id, .clientHint bps now⟩
  | _ => none

def Propagated.nativeCall : Propagated → Option EstimatorCall
  | .bandwidthEstimate id bps => some ⟨id, .nativeEstimate (.num bps)⟩
  | _ => none

namespace NetPoll

def nativeCalls (F : Features) (x : ClientId × Instant × NetResult) : List EstimatorCall :=
  match x.2.2 with
  | some (.event (.egressBitrateEstimate bwe)) =>
    if F.pacerLayersDrive then (propagateBwe x.1 bwe).nativeCall.toList else []
  | _ => []

/-- The times at which the last video packet among some results came in and was sent. -/
def lastVideo (arrivalMs : ℚ) (l : List (ClientId × Instant × NetResult)) : Option (ℚ × ℚ) :=
  ((media l).filter fun x => x.2.isVideo).getLast?.map fun x => (arrivalMs, x.2.rtpSendMs)

end NetPoll

theorem Client.pollOutput_nativeCall (c : Client) (heap : List ArcTrack) (addr : WeakTrack)
    (now : Instant) (ha : c.isAlive = true) (x : PollResult) :
    (c.pollOutput heap addr now x).2.1.nativeCall =
      match x with
      | some (.event (.egressBitrateEstimate bwe)) => (propagateBwe c.id bwe).nativeCall
      | _ => none := by
  unfold pollOutput
  rw [if_pos ha]
  rcases x with - | - | t | e
  · rfl
  · rfl
  · rfl
  · cases e with
    | keyframeRequest req =>
      rcases c.incomingKeyframeReq_cases heap req with h | ⟨_, _, _, _, h⟩
      · simp [handleEvent, h, Propagated.nativeCall]
      · simp only [handleEvent, h]
        split_ifs <;> rfl
    | mediaData data => simp [handleEvent, Propagated.nativeCall]
    | _ => rfl

namespace Registry
variable {D : Type*} (F : Features) (now : Instant)

def hintCalls (r : Registry D) : List EstimatorCall :=
  if F.kalmanBwe then r.toPropagate.filterMap (Propagated.hintCall now) else []

theorem fanoutStep_calls (r : Registry D) :
    (r.fanoutStep F now).bandwidth.calls ((r.fanoutStep F now).hintCalls F now) =
      r.bandwidth.calls (r.hintCalls F now) := by
  unfold fanoutStep
  cases hq : r.toPropagate with
  | nil => rfl
  | cons p rest =>
    dsimp only
    obtain ⟨evs, hevs, -, hmode⟩ := fanoutEvent_queue F now { r with toPropagate := rest } p
    have hnone : evs.filterMap (Propagated.hintCall now) = [] := by
      rw [List.filterMap_eq_nil_iff]
      intro e he
      have hm := hmode e he
      cases e <;> first | rfl | cases hm
    rw [fanoutEvent_bandwidth, hintCalls, hintCalls, hq, hevs, List.filterMap_append, hnone,
      List.append_nil]
    cases p with
    | clientBudgetHint id bps =>
      dsimp only
      split_ifs <;> rfl
    | _ => rfl

theorem fanoutPending_calls (r : Registry D) : (r.fanoutPending F now).bandwidth =
    r.bandwidth.calls (r.hintCalls F now) := by
  have hloop := fanoutPending_invariant F now (r := r)
    (P := fun s => s.bandwidth.calls (s.hintCalls F now) = r.bandwidth.calls (r.hintCalls F now))
    (fun s hs => (fanoutStep_calls F now s).trans hs) rfl
  rw [← hloop, hintCalls, fanoutPending_toPropagate]
  cases F.kalmanBwe <;> rfl

theorem feedGoogcc_calls (r : Registry D) (arrivalMs sendMs : ℚ) :
    (r.feedGoogcc arrivalMs sendMs).bandwidth =
      r.bandwidth.calls (r.ids.map fun id => ⟨id, .googccReceive arrivalMs sendMs 0⟩) := by
  rw [BandwidthEstimator.calls, run, ids, List.map_map, List.foldl_map]
  rfl

theorem reapDead_calls [ActiveSpeakerDetector D] (r : Registry D) : (r.reapDead F).bandwidth =
    r.bandwidth.calls
      (if F.kalmanBwe then (r.clients.filter fun c => !c.isAlive).map fun c => ⟨c.id, .reap⟩
        else []) := by
  simp only [reapDead]
  split_ifs
  · rw [BandwidthEstimator.calls, run, List.foldl_map]
    rfl
  · rfl

section Poll
variable [ActiveSpeakerDetector D]

theorem pollStep_calls {i : ℕ} {st : PollState D} {c : Client} (hc : st.reg.clients[i]? = some c)
    (ha : c.isAlive = true) (x : Instant × PollResult) :
    (pollStep F now i st x).1.reg.bandwidth =
      st.reg.bandwidth.calls
        (if F.pacerLayersDrive then
          (c.pollOutput st.reg.heap st.nextAlloc x.1 x.2).2.1.nativeCall.toList else []) := by
  unfold pollStep
  rw [hc]
  dsimp only
  rw [if_pos ha, handlePolled_bandwidth]
  generalize (c.pollOutput st.reg.heap st.nextAlloc x.1 x.2).2.1 = p
  cases p with
  | bandwidthEstimate id bps =>
    dsimp only
    split_ifs <;> rfl
  | _ => split_ifs <;> rfl

theorem handlePolled_timing (clock : Instant) (i : ℕ) (c : Client) (st : PollState D)
    (p : Propagated) : (handlePolled F now clock i c st p).1.lastVideoTiming =
      st.reg.videoTiming F now st.lastVideoTiming p := by
  cases p <;> rfl

theorem pollStep_timing {i : ℕ} {st : PollState D} {c : Client}
    (hc : st.reg.clients[i]? = some c) (ha : c.isAlive = true) (x : Instant × PollResult) :
    (pollStep F now i st x).1.lastVideoTiming =
      match x.2 with
      | some (.event (.mediaData data)) =>
        st.reg.videoTiming F now st.lastVideoTiming (.mediaData c.id (.fromStr0m data))
      | _ => st.lastVideoTiming := by
  unfold pollStep
  rw [hc]
  dsimp only
  rw [if_pos ha, handlePolled_timing]
  unfold Client.pollOutput
  rw [if_pos ha]
  rcases x with ⟨clock, - | - | t | e⟩
  · rfl
  · rfl
  · rfl
  · cases e with
    | keyframeRequest req =>
      rcases c.incomingKeyframeReq_cases st.reg.heap req with h | ⟨_, _, _, _, h⟩
      · simp [Client.handleEvent, h, videoTiming]
      · simp only [Client.handleEvent, h]
        split_ifs <;> rfl
    | mediaData data =>
      simp only [Client.handleEvent, Client.trackInMedia_event]
      rfl
    | _ => rfl

theorem pollStep_bweEpoch (i : ℕ) (st : PollState D) (x : Instant × PollResult) :
    (pollStep F now i st x).1.reg.bweEpoch = st.reg.bweEpoch := (quiet_pollStep F now i st x).epoch

end Poll
end Registry

namespace NetPoll
variable {D : Type*} [ActiveSpeakerDetector D] (F : Features) (now : Instant)

theorem round_calls (feed : NetFeed) (st : NetPoll D) :
    ((loop F now).round feed st).poll.reg.bandwidth =
      st.poll.reg.bandwidth.calls
        ((trace feed st.poll.reg.clients).flatMap (nativeCalls F)) := by
  rw [BandwidthEstimator.calls_flatMap]
  apply round_view F now fun st => st.poll.reg.bandwidth
  intro i st x c hc ha
  rw [(step_poll F now i st x).1, Registry.pollStep_calls F now hc ha,
    c.pollOutput_nativeCall _ _ _ ha]
  rcases x with ⟨clock, - | t | t | e⟩
  · simp [NetResult.result, nativeCalls]
  · simp [NetResult.result, NetOutput.output, nativeCalls]
  · simp [NetResult.result, NetOutput.output, nativeCalls]
  · cases e <;> simp [NetResult.result, NetOutput.output, nativeCalls]

theorem lastVideo_concat (arrivalMs : ℚ) (l : List (ClientId × Instant × NetResult))
    (x : ClientId × Instant × NetResult) : lastVideo arrivalMs (l ++ [x]) =
      match x.2.2 with
      | some (.event (.mediaData data)) =>
        if (SfuMediaPayload.fromStr0m data).isVideo then
          some (arrivalMs, (SfuMediaPayload.fromStr0m data).rtpSendMs)
        else lastVideo arrivalMs l
      | _ => lastVideo arrivalMs l := by
  have hmedia : media (l ++ [x]) = media l ++ media [x] := List.flatMap_append
  rw [lastVideo, hmedia, List.filter_append]
  rcases x with ⟨id, clock, - | t | t | e⟩
  · simp [media, lastVideo]
  · simp [media, lastVideo]
  · simp [media, lastVideo]
  · cases e with
    | mediaData data =>
      by_cases hv : (SfuMediaPayload.fromStr0m data).isVideo = true
      · simp [media, hv]
      · simp [media, hv, lastVideo]
    | _ => simp [media, lastVideo]

def timing (s : Instant × Option (ℚ × ℚ)) (x : ClientId × Instant × NetResult) :
    Instant × Option (ℚ × ℚ) :=
  match x.2.2 with
  | some (.event (.mediaData data)) =>
    if F.kalmanBwe && F.googccBwe && (SfuMediaPayload.fromStr0m data).isVideo then
      (s.1, some (asMillisF64 (durationSince now s.1), (SfuMediaPayload.fromStr0m data).rtpSendMs))
    else s
  | _ => s

theorem foldl_timing (epoch : Instant) (l : List (ClientId × Instant × NetResult)) :
    l.foldl (timing F now) (epoch, none) = (epoch,
      if F.kalmanBwe && F.googccBwe then lastVideo (asMillisF64 (durationSince now epoch)) l
      else none) := by
  induction l using List.reverseRecOn with
  | nil => simp [lastVideo, media]
  | append_singleton l x ih =>
    rw [List.foldl_concat, ih, lastVideo_concat]
    rcases x with ⟨id, clock, - | t | t | e⟩
    · rfl
    · rfl
    · rfl
    · cases e with
      | mediaData data =>
        cases hF : F.kalmanBwe && F.googccBwe with
        | false => simp [timing, hF]
        | true =>
          simp only [timing, hF, Bool.true_and, if_true]
          split_ifs <;> rfl
      | _ => rfl

/-- The timing of the last video packet that the polls return. -/
theorem round_timing (feed : NetFeed) (st : NetPoll D) (h : st.poll.lastVideoTiming = none) :
    ((loop F now).round feed st).poll.lastVideoTiming =
      if F.kalmanBwe && F.googccBwe then
        lastVideo (asMillisF64 (durationSince now st.poll.reg.bweEpoch))
          (trace feed st.poll.reg.clients)
      else none := by
  have hview : ∀ i (st : NetPoll D) x c, st.poll.reg.clients[i]? = some c → c.isAlive = true →
      ((step F now i st x).1.poll.reg.bweEpoch, (step F now i st x).1.poll.lastVideoTiming) =
        timing F now (st.poll.reg.bweEpoch, st.poll.lastVideoTiming) (c.id, x) := by
    intro i st x c hc ha
    rw [(step_poll F now i st x).1, Registry.pollStep_bweEpoch,
      Registry.pollStep_timing F now hc ha]
    rcases x with ⟨clock, - | t | t | e⟩
    · rfl
    · rfl
    · rfl
    · cases e with
      | mediaData data =>
        simp only [NetResult.result, NetOutput.output, Option.map_some, Registry.videoTiming, timing]
        split_ifs <;> rfl
      | _ => rfl
  have hround := round_view F now (fun st => (st.poll.reg.bweEpoch, st.poll.lastVideoTiming))
    hview feed st
  rw [h, foldl_timing] at hround
  exact congrArg Prod.snd hround

end NetPoll

namespace Process
variable {D : Type*} [ActiveSpeakerDetector D] (F : Features)

/-- The calls of the estimator that a call of the process comes down to. -/
def estimatorCalls (p : Process D) : Op → List EstimatorCall
  | .onTwccFeedback id feedback now => if F.kalmanBwe then [⟨id, .twccFeedback feedback now⟩] else []
  | .recordSendTime id seq sentAt => if F.kalmanBwe then [⟨id, .sendTime seq sentAt⟩] else []
  | .recordNativeEstimate id bps => if F.kalmanBwe then [⟨id, .nativeEstimate bps⟩] else []
  | .enableGoogcc id => if F.googccBwe then [⟨id, .enableGoogcc⟩] else []
  | .googccOnReceive id arrivalMs sendMs loss =>
    if F.googccBwe then [⟨id, .googccReceive arrivalMs sendMs loss⟩] else []
  | .fanoutPending now => p.reg.hintCalls F now
  | .pollAll now feed =>
    let taken := NetPoll.trace feed.net p.reg.clients
    let arrivalMs := asMillisF64 (durationSince now p.reg.bweEpoch)
    let sample := if F.kalmanBwe && F.googccBwe then NetPoll.lastVideo arrivalMs taken else none
    taken.flatMap (NetPoll.nativeCalls F) ++
      sample.toList.flatMap fun x => p.reg.ids.map fun id => ⟨id, .googccReceive x.1 x.2 0⟩
  | .reapDead =>
    if F.kalmanBwe then (p.reg.clients.filter fun c => !c.isAlive).map fun c => ⟨c.id, .reap⟩ else []
  | _ => []

theorem pollAll_calls (p : Process D) (now : Instant) (feed : Feed) :
    (p.pollAll F now feed).reg.bandwidth =
      p.reg.bandwidth.calls (p.estimatorCalls F (.pollAll now feed)) := by
  have hround := NetPoll.round_calls F now feed.net
    ⟨⟨p.reg, p.nextAlloc, now + fromMillis 100, none⟩, fun _ => []⟩
  have htiming := NetPoll.round_timing F now feed.net
    ⟨⟨p.reg, p.nextAlloc, now + fromMillis 100, none⟩, fun _ => []⟩ rfl
  have hpoll := NetPoll.round_poll F now feed.net
    ⟨⟨p.reg, p.nextAlloc, now + fromMillis 100, none⟩, fun _ => []⟩
  rw [hpoll, Feed.net_feed] at hround htiming
  have hids := Registry.ids_of_badges (Registry.pollClients_badges F now feed
    ⟨p.reg, p.nextAlloc, now + fromMillis 100, none⟩)
  simp only [pollAll, Registry.pollAll, estimatorCalls]
  rw [BandwidthEstimator.calls_append, ← hround, htiming]
  split
  · next arrivalMs sendMs hsample =>
    rw [hsample, Registry.feedGoogcc_calls, hids]
    simp
  · next hsample =>
    rw [hsample]
    rfl

/-- Every call of the process does to the estimator what the calls it comes down to do. -/
theorem step_calls (p : Process D) (op : Op) : (p.step F op).reg.bandwidth =
    p.reg.bandwidth.calls (p.estimatorCalls F op) := by
  have hnotice (hquiet : op.isNotice = true) : (p.step F op).reg.bandwidth =
      p.reg.bandwidth.calls (p.estimatorCalls F op) := by
    obtain ⟨_, _, _, -, hstep⟩ := p.step_notice F hquiet
    rw [hstep]
    cases op <;> first | rfl | cases hquiet
  cases op with
  | clientNew rtc metrics =>
    simp only [step, clientNew]
    obtain ⟨_, h⟩ := metricsCalls_reg { p with
      held := p.held ++ [(Client.new ⟨p.idCounter⟩ rtc metrics).1]
      idCounter := p.idCounter + 1 } metrics (Client.new ⟨p.idCounter⟩ rtc metrics).2
    rw [h]
    rfl
  | heldPoll id clock result =>
    simp only [step, heldPoll]
    split
    · rfl
    · obtain ⟨_, h⟩ := metricsCalls_reg ..
      rw [h]
      rfl
  | setOrigin | setDesiredLayer | connection => rfl
  | dropHeld id =>
    simp only [step, dropHeld]
    split <;> rfl
  | insert id now =>
    simp only [step, insert]
    split <;> rfl
  | pollAll now feed => exact pollAll_calls F p now feed
  | fanoutPending now => exact Registry.fanoutPending_calls F now p.reg
  | reapDead => exact Registry.reapDead_calls F p.reg
  | updatePacerLayers | onTwccFeedback | recordSendTime | recordNativeEstimate | enableGoogcc
    | googccOnReceive =>
    simp only [step, estimatorCalls]
    split_ifs <;> rfl
  | emitPublisherLayerHints | clientBudgetHint | recordAudioLevel | tickActiveSpeaker
    | tickSpeakerScores => exact hnotice rfl

/-- The calls of the estimator that a run comes down to. -/
def estimatorLog (p : Process D) (ops : List Op) : List EstimatorCall :=
  emissions (step F) (estimatorCalls F) p ops

theorem bandwidth_run (p : Process D) (ops : List Op) :
    (run F p ops).reg.bandwidth = p.reg.bandwidth.calls (p.estimatorLog F ops) := by
  have hinv : ∀ (p : Process D) (op : Op), True → True := fun _ _ h => h
  exact run_refines (fun p => p.reg.bandwidth) hinv (fun p op _ => step_calls F p op) trivial ops

/-- In every run, whoever connects, sends, is polled, heard or reaped, and in whatever order, a
client has an estimate exactly if it is known, and the estimate is then the lowest of five
ceilings, each of which is what the calls about this client that feed it would make of it without
all the others. -/
theorem ceilings_run (now later : Instant) (ops : List Op) (id : ClientId) (e : ℕ × BindingTerm) :
    let log := (start now : Process D).estimatorLog F ops
    (run F (start now : Process D) ops).reg.bandwidth.estimateWithTerm id later = some e ↔
      BandwidthEstimator.Known log id ∧
        e = (asU64 (BandwidthEstimator.lowest log id later).1,
          (BandwidthEstimator.lowest log id later).2) := by
  intro log
  rw [bandwidth_run]
  exact BandwidthEstimator.estimateWithTerm_calls log id later e

end Process
end SfuKit
