import SfuKit.Model.Metrics

/-! # Tracks, keyframe requests, the peer connection and propagated events

A publisher owns its `TrackIn`s; everyone else refers to them weakly, by
address. `Rtc` is what the program observes of a str0m peer connection:
whether it is alive, its negotiated writers, and the calls made on them.
-/
namespace SfuKit

/-- An incoming track advertised by a client. -/
structure TrackIn where
  origin : ClientId
  mid : SfuMid
  kind : MediaKind
  relaySource : Bool
deriving DecidableEq, Repr

/-- `Weak<TrackIn>`: the address of the allocation. -/
abbrev WeakTrack := ℕ

/-- `Arc<TrackIn>`: an allocation and its address. -/
structure ArcTrack where
  addr : WeakTrack
  track : TrackIn
deriving DecidableEq, Repr

def ArcTrack.downgrade (a : ArcTrack) : WeakTrack := a.addr

/-- `Weak::upgrade` among the allocations that still have an owner. -/
def upgrade (heap : List ArcTrack) (w : WeakTrack) : Option TrackIn :=
  (heap.find? fun a => a.addr = w).map (·.track)

structure TrackInEntry where
  id : ArcTrack
  lastKeyframeRequest : Option Instant
deriving DecidableEq, Repr

inductive TrackOutState where
  | toOpen
  | negotiating (mid : SfuMid)
  | opened (mid : SfuMid)
deriving DecidableEq, Repr

structure TrackOut where
  trackIn : WeakTrack
  state : TrackOutState
deriving DecidableEq, Repr

def TrackOut.mid (o : TrackOut) : Option SfuMid :=
  match o.state with
  | .toOpen => none
  | .negotiating m | .opened m => some m

inductive SfuKeyframeKind where
  | pli
  | fir
deriving DecidableEq, Repr

structure SfuKeyframeRequest where
  mid : SfuMid
  rid : Option SfuRid
  kind : SfuKeyframeKind
deriving DecidableEq, Repr

/-- A `request_keyframe` call made on a writer. -/
structure KeyframeCall where
  time : Instant
  mid : SfuMid
  rid : Option SfuRid
  kind : SfuKeyframeKind
deriving DecidableEq, Repr

structure WriteCall where
  mid : SfuMid
  pt : SfuPt
  networkTime : Instant
  time : MediaTime
  data : List UInt8
  keyEpoch : Option ℕ
deriving DecidableEq, Repr

structure Writer where
  mid : SfuMid
  payloads : List (PayloadParams × SfuPt)
  /-- Whether `write` returns `Ok`. -/
  writable : Bool
deriving DecidableEq, Repr

def Writer.matchParams (w : Writer) (params : PayloadParams) : Option SfuPt :=
  w.payloads.lookup params

structure Rtc where
  alive : Bool
  writers : List Writer
  /-- Latest first. -/
  keyframeCalls : List KeyframeCall
  /-- Latest first. -/
  written : List WriteCall
deriving DecidableEq, Repr

namespace Rtc

def new : Rtc := ⟨true, [], [], []⟩

def disconnect (r : Rtc) : Rtc := { r with alive := false }

def writer (r : Rtc) (mid : SfuMid) : Option Writer := r.writers.find? fun w => w.mid = mid

end Rtc

structure PeerRtcpStats where
  fractionLost : ℚ
  rtt : Duration
  jitter : Duration
deriving DecidableEq, Repr

/-- Events the registry propagates between clients. -/
inductive Propagated where
  | noop
  | timeout (t : Instant)
  | trackOpen (origin : ClientId) (track : WeakTrack)
  | mediaData (origin : ClientId) (data : SfuMediaPayload)
  | keyframeRequest (origin : ClientId) (req : SfuKeyframeRequest) (source : ClientId)
      (sourceMid : SfuMid)
  | upstreamKeyframeRequest (sourceRelayId : ClientId) (req : SfuKeyframeRequest)
      (sourceMid : SfuMid)
  | activeSpeakerChanged (peerId : ℕ) (confidence : ℚ)
  | bandwidthEstimate (peerId : ClientId) (bps : ℕ)
  | clientBudgetHint (peerId : ClientId) (bps : ℕ)
  | rtcpStats (peerId : ClientId) (stats : PeerRtcpStats)
  | audioOnlyMode (peerId : ClientId) (audioOnly : Bool)
  | suspendVideo (peerId : ClientId) (suspended : Bool)
  | publisherLayerHint (publisherId : ClientId) (maxRid : SfuRid)
  | publisherLayerHintForUpstream (publisherRelayId : ClientId) (maxRid : SfuRid)
  | audioCodecHint (peerId : ClientId) (opusRed opusDred : Bool)
deriving DecidableEq, Repr

/-- `Propagated::client_id`: which client produced this event, if any. -/
def Propagated.clientId : Propagated → Option ClientId
  | .trackOpen c _ | .mediaData c _ | .keyframeRequest c _ _ _ => some c
  | .noop | .timeout _ | .activeSpeakerChanged _ _ => none
  | .clientBudgetHint c _ | .bandwidthEstimate c _ | .rtcpStats c _ => some c
  | .audioOnlyMode c _ | .suspendVideo c _ => some c
  | .publisherLayerHint c _ | .publisherLayerHintForUpstream c _ => some c
  | .audioCodecHint c _ _ | .upstreamKeyframeRequest c _ _ => some c

/-- str0m's `BweKind`. -/
inductive BweKind where
  | twcc (bitrate : ℕ)
  | remb (mid : SfuMid) (bitrate : ℕ)
  | unknown
deriving DecidableEq, Repr

/-- The str0m events the client handles. -/
inductive Event where
  | iceDisconnected
  | mediaAdded (mid : SfuMid) (kind : MediaKind)
  | mediaData (data : MediaData)
  | keyframeRequest (req : SfuKeyframeRequest)
  | egressBitrateEstimate (bwe : BweKind)
  | peerStats (egressLossFraction : Option ℚ) (rtt : Option Duration)
  | other
deriving DecidableEq, Repr

/-- str0m's `Output`. -/
inductive Output where
  | transmit
  | timeout (t : Instant)
  | event (e : Event)
deriving DecidableEq, Repr

/-- What `Rtc::poll_output` returns; `none` is the `Err` case. -/
abbrev PollResult := Option Output

/-- A result after which the inner loop of `poll_all` stops: a timeout, or one that disconnects. -/
def endsPolling : PollResult → Bool
  | none | some (.timeout _) | some (.event .iceDisconnected) => true
  | _ => false

theorem mem_of_upgrade {heap : List ArcTrack} {w : WeakTrack} {t : TrackIn}
    (h : upgrade heap w = some t) : ⟨w, t⟩ ∈ heap := by
  unfold upgrade at h
  obtain ⟨a, ha, rfl⟩ := Option.map_eq_some_iff.mp h
  have haddr := List.find?_some ha
  simp only [decide_eq_true_eq] at haddr
  subst haddr
  exact List.mem_of_find?_eq_some ha

theorem upgrade_isSome_iff {heap : List ArcTrack} {w : WeakTrack} :
    (upgrade heap w).isSome ↔ w ∈ heap.map (·.addr) := by
  simp [upgrade, List.find?_isSome]

end SfuKit
