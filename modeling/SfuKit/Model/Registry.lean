import SfuKit.Model.Client

/-! # The registry of connected peers

Insertion with cross-advertisement, event fanout, reaping, the dominant-speaker
entry points and the publisher layer hints. The third-party speaker detector is
a type with its operations; `Features` are the cargo features of a build.
-/
namespace SfuKit

/-- The cargo features that select code in the registry. -/
structure Features where
  activeSpeaker : Bool
  pacer : Bool
  kalmanBwe : Bool
  googccBwe : Bool
  /-- The `compile_error!` of `registry/mod.rs`. -/
  googcc_needs_kalman : googccBwe = true → kalmanBwe = true

namespace Features

def full : Features := ⟨true, true, true, true, fun _ => rfl⟩

/-- Which drive site is live: `update_pacer_layers`, or else `poll_all`. -/
def pacerLayersDrive (F : Features) : Bool := F.pacer && F.kalmanBwe
def pollAllDrives (F : Features) : Bool := F.pacer && !F.kalmanBwe

theorem not_pollAllDrives {F : Features} (h : F.pacerLayersDrive = true) :
    ¬ F.pollAllDrives = true := by
  simp only [pacerLayersDrive, Bool.and_eq_true] at h
  simp [pollAllDrives, h.2]

end Features

/-- The operations of `dominant_speaker::ActiveSpeakerDetector` the registry uses. -/
class ActiveSpeakerDetector (D : Type*) where
  new : D
  addPeer : D → ℕ → ℕ → D
  recordLevel : D → ℕ → ℕ → ℕ → D
  removePeer : D → ℕ → D
  /-- The new dominant peer with its margin, if dominance changed. -/
  tick : D → ℕ → D × Option (ℕ × ℚ)
  /-- Peers with their immediate, medium and long scores. -/
  peerScores : D → List (ℕ × ℚ × ℚ × ℚ)

/-- What a run has done so far, as a history that no operation reads. -/
inductive Obs where
  /-- A pacer took the reading `bps`; `signals` is the estimator entry it came from. -/
  | advance (peer : ClientId) (now : Instant) (bps : ℕ) (action : PacerAction)
      (signals : Option PerSubscriber)
  /-- `handle_media_data_out` ran on `before` and left `after`. -/
  | delivery (before after : Client) (heap : List ArcTrack) (origin : ClientId)
      (data : SfuMediaPayload)
  /-- `poll_all` fed a timing sample to the GoogCC estimator of `peer`. -/
  | sample (peer : ClientId) (arrivalMs sendMs : ℚ)

structure Registry (D : Type*) where
  clients : List Client
  toPropagate : List Propagated
  metrics : SfuMetrics
  detector : D
  detectorEpoch : Instant
  bandwidth : BandwidthEstimator
  bweEpoch : Instant
  history : List Obs

/-- `fanout` on one client, origin check included: its new state, the metrics it calls, and the
call of `handle_media_data_out` for the history. -/
def fanoutClient (heap : List ArcTrack) (now : Instant) (p : Propagated) (c : Client) :
    Client × List MetricCall × List Obs :=
  match p with
  | .activeSpeakerChanged peerId _ =>
    if c.id.raw = peerId then (c, [], []) else (c.handleActiveSpeakerChanged peerId, [], [])
  | .trackOpen origin trackIn =>
    if c.id = origin then (c, [], []) else (c.handleTrackOpen trackIn, [], [])
  | .mediaData origin data =>
    if c.id = origin then (c, [], [])
    else
      let out := c.handleMediaDataOut heap origin data
      (out.1, out.2, [.delivery c out.1 heap origin data])
  | .keyframeRequest origin req source midIn =>
    if c.id ≠ origin ∧ source = c.id then (c.handleKeyframeRequest now req midIn, [], [])
    else (c, [], [])
  | _ => (c, [], [])

namespace Registry
variable {D : Type*}

/-- The track allocations that the room keeps alive. -/
def heap (r : Registry D) : List ArcTrack := r.clients.flatMap Client.arcs

def ids (r : Registry D) : List ClientId := r.clients.map (·.id)

/-- `to_propagate.push_back`. -/
def push (r : Registry D) (p : Propagated) : Registry D :=
  { r with toPropagate := r.toPropagate ++ [p] }

/-- `fanout(&p, &mut self.clients)`. -/
def fanout (r : Registry D) (now : Instant) (p : Propagated) : Registry D :=
  { r with clients := r.clients.map fun c => (fanoutClient r.heap now p c).1
           metrics := r.metrics.calls
             (r.clients.flatMap fun c => (fanoutClient r.heap now p c).2.1)
           history := r.history ++ r.clients.flatMap fun c => (fanoutClient r.heap now p c).2.2 }

/-- The insert-time sweep: announce every existing track to the newcomer. -/
def announceExisting (r : Registry D) (c : Client) : Client :=
  r.heap.foldl (fun c a => c.handleTrackOpen a.downgrade) c

/-- One GoogCC sample for every connected client that has GoogCC enabled. -/
def feedGoogcc (r : Registry D) (arrivalMs sendMs : ℚ) : Registry D :=
  let fed := r.clients.filter fun c => r.bandwidth.googccActive c.id
  { r with bandwidth := r.clients.foldl
             (fun b c => b.googccOnReceive c.id arrivalMs sendMs 0) r.bandwidth
           history := r.history ++ fed.map fun c => .sample c.id arrivalMs sendMs }

/-- The `rank(sub_desired) > rank(*entry)` update of the hint table. -/
def raiseHint (table : AList (fun _ : ClientId => SfuRid)) (publisher : ClientId)
    (desired : SfuRid) : AList (fun _ : ClientId => SfuRid) :=
  let entry := (table.lookup publisher).getD .low
  table.insert publisher (if layerRank entry < layerRank desired then desired else entry)

/-- `max_per_publisher` of `emit_publisher_layer_hints`. -/
def maxPerPublisher (r : Registry D) : AList (fun _ : ClientId => SfuRid) :=
  r.clients.foldl (fun table subscriber =>
    subscriber.tracksOut.foldl (fun table o =>
      match upgrade r.heap o.trackIn with
      | some trackIn => raiseHint table trackIn.origin subscriber.desiredLayer
      | none => table) table) ∅

def emitPublisherLayerHints (r : Registry D) : Registry D :=
  let hints := r.maxPerPublisher.entries.map fun e : Sigma fun _ : ClientId => SfuRid =>
    if r.clients.any fun c => c.id = e.1 ∧ c.isRelay then
      Propagated.publisherLayerHintForUpstream e.1 e.2
    else .publisherLayerHint e.1 e.2
  { r with toPropagate := r.toPropagate ++ hints }

section Detector
variable [ActiveSpeakerDetector D]

def new (now : Instant) : Registry D where
  clients := []
  toPropagate := []
  metrics := .newDefault
  detector := ActiveSpeakerDetector.new
  detectorEpoch := now
  bandwidth := .new
  bweEpoch := now
  history := []

def nowMs (r : Registry D) (now : Instant) : ℕ := asMillis (durationSince now r.detectorEpoch)

/-- The `active-speaker` block of `insert`: capture the registration decision. -/
def registerSpeaker (F : Features) (now : Instant) (r : Registry D) (c : Client) :
    Client × D :=
  if F.activeSpeaker then
    let register := !c.isRelay
    ({ c with inSpeakerDetector := register },
      if register then ActiveSpeakerDetector.addPeer r.detector c.id.raw (r.nowMs now)
      else r.detector)
  else (c, r.detector)

def insert (F : Features) (now : Instant) (r : Registry D) (client : Client) : Registry D :=
  let client := r.announceExisting { client with metrics := .registry }
  let (client, detector) := r.registerSpeaker F now client
  { r with detector
           clients := r.clients ++ [client]
           metrics := r.metrics.calls [.withLabelValues .videoFramesDropped client.id.raw,
             .inc .clientConnect, .incActiveParticipants] }

def recordAudioLevel (r : Registry D) (peerId levelRaw : ℕ) (now : Instant) : Registry D :=
  if r.clients.any fun c => c.id.raw = peerId ∧ c.inSpeakerDetector then
    { r with detector :=
        ActiveSpeakerDetector.recordLevel r.detector peerId levelRaw (r.nowMs now) }
  else r

def tickActiveSpeaker (r : Registry D) (now : Instant) : Registry D :=
  let (detector, change) := ActiveSpeakerDetector.tick r.detector (r.nowMs now)
  match change with
  | some (peerId, margin) =>
    { r with detector
             metrics := r.metrics.call (.inc .dominantSpeakerChanges)
             toPropagate := r.toPropagate ++ [.activeSpeakerChanged peerId margin] }
  | none => { r with detector }

def tickSpeakerScores (r : Registry D) : Registry D :=
  let scores := ActiveSpeakerDetector.peerScores r.detector
  { r with metrics := r.metrics.calls (scores.flatMap fun s => updatePeerSpeakerScores s.1) }

/-- The detector's part of the sweep: remove exactly what `insert` registered. -/
def reapSpeakers (detector : D) (dead : List Client) : D :=
  dead.foldl (fun d c =>
    if c.inSpeakerDetector then ActiveSpeakerDetector.removePeer d c.id.raw else d) detector

def reapDead (F : Features) (r : Registry D) : Registry D :=
  let dead := r.clients.filter fun c => !c.isAlive
  { r with
    clients := r.clients.filter Client.isAlive
    detector := if F.activeSpeaker then reapSpeakers r.detector dead else r.detector
    bandwidth :=
      if F.kalmanBwe then dead.foldl (fun b c => b.reapDead c.id) r.bandwidth else r.bandwidth
    metrics := r.metrics.calls (dead.flatMap fun c =>
      [.inc .clientDisconnect, .decActiveParticipants, .reapDeadPeer c.id.raw]) }

end Detector
end Registry
end SfuKit
