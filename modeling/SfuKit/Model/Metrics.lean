import SfuKit.Model.Bandwidth.Subscriber

/-! # Metrics

The calls the program makes on its metrics handle, and the state they build:
counters, the participants gauge and the set of per-peer label series.
-/
namespace SfuKit

inductive KindLabel where
  | audio
  | video
  | other
deriving DecidableEq, Repr

def MediaKind.label : MediaKind → KindLabel
  | .audio => .audio
  | .video => .video

inductive LayerLabel where
  | q
  | h
  | f
  | other
deriving DecidableEq, Repr

def ridLabel (rid : SfuRid) : LayerLabel :=
  if rid = .low then .q else if rid = .medium then .h else if rid = .high then .f else .other

inductive Direction where
  | inbound
  | outbound
deriving DecidableEq, Repr

/-- The counters; byte counters carry the amount of each addition. -/
inductive Counter where
  | forwardedPackets (kind : KindLabel)
  | trackBytes (direction : Direction) (kind : KindLabel) (n : ℕ)
  | layerSelection (layer : LayerLabel)
  | suspendVideo (enter : Bool)
  | pacerTickThrottled
  | clientConnect
  | clientDisconnect
  | dominantSpeakerChanges
  | rtcpPli (direction : Direction)
  | videoFramesDropped (peerId : ℕ)
deriving DecidableEq, Repr

inductive PeerSeries where
  | lossFraction
  | rttMs
  | jitterMs
  | bandwidthEstimateBps
  | bindingTerm (term : BindingTerm)
  | speakerImmediate
  | speakerMedium
  | speakerLong
  | videoFramesDropped
deriving DecidableEq, Repr

inductive MetricCall where
  | inc (c : Counter)
  | incActiveParticipants
  | decActiveParticipants
  /-- `with_label_values`, which creates an absent series. -/
  | withLabelValues (s : PeerSeries) (peerId : ℕ)
  | reapDeadPeer (peerId : ℕ)
deriving DecidableEq, Repr

def updatePeerRtcp (peerId : ℕ) : List MetricCall :=
  [.withLabelValues .lossFraction peerId, .withLabelValues .rttMs peerId,
    .withLabelValues .jitterMs peerId]

def updatePeerSpeakerScores (peerId : ℕ) : List MetricCall :=
  [.withLabelValues .speakerImmediate peerId, .withLabelValues .speakerMedium peerId,
    .withLabelValues .speakerLong peerId]

structure SfuMetrics where
  /-- Every increment so far, latest first. -/
  increments : List Counter
  activeParticipants : ℤ
  series : List (PeerSeries × ℕ)
deriving DecidableEq, Repr

namespace SfuMetrics

def newDefault : SfuMetrics := ⟨[], 0, []⟩

def call (m : SfuMetrics) : MetricCall → SfuMetrics
  | .inc c => { m with increments := c :: m.increments }
  | .incActiveParticipants => { m with activeParticipants := m.activeParticipants + 1 }
  | .decActiveParticipants => { m with activeParticipants := m.activeParticipants - 1 }
  | .withLabelValues s peerId =>
    if (s, peerId) ∈ m.series then m else { m with series := (s, peerId) :: m.series }
  | .reapDeadPeer peerId => { m with series := m.series.filter fun s => s.2 ≠ peerId }

def calls (m : SfuMetrics) (l : List MetricCall) : SfuMetrics := l.foldl call m

end SfuMetrics
end SfuKit
