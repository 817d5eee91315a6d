import SfuKit.Model.Pacer
import SfuKit.Model.LayerSelector
import SfuKit.Model.Tracks

/-! # The per-peer client

The state machine around one peer connection: str0m's outputs turned into
propagated events, the pacer with the layer preference it drives, and the
filters a forwarded packet passes. Every handler returns the calls it makes on
the metrics handle beside the new state.
-/
namespace SfuKit

inductive ClientOrigin where
  | locally
  | relayFromSfu (edge : String)
deriving DecidableEq, Repr

/-- Which metrics instance a client's handle points to. -/
inductive MetricsHandle where
  | throwaway
  | registry
deriving DecidableEq, Repr

structure Client where
  id : ClientId
  origin : ClientOrigin
  inSpeakerDetector : Bool
  rtc : Rtc
  tracksIn : List TrackInEntry
  tracksOut : List TrackOut
  chosenRid : Option SfuRid
  desiredLayer : SfuRid
  /-- The set of observed RIDs, in iteration order. -/
  activeRids : List SfuRid
  midToKind : AList (fun _ : SfuMid => MediaKind)
  metrics : MetricsHandle
  deliveredMedia : ℕ
  deliveredActiveSpeaker : ℕ
  pacer : SubscriberPacer
  suspended : Bool
  lastPacerDrive : Option Instant
  maxTemporalLayer : UInt8
  maxVfmTemporalLayer : UInt8

def keyframeRequestMinGap : Duration := fromSecs 1

/-- `HashSet::insert` on the iteration order. -/
def insertRid (rids : List SfuRid) (rid : SfuRid) : List SfuRid :=
  if rid ∈ rids then rids else rids ++ [rid]

/-- Record a keyframe request on the first entry with this media line. -/
def markKeyframeRequest (mid : SfuMid) (now : Instant) : List TrackInEntry → List TrackInEntry
  | [] => []
  | e :: rest =>
    if e.id.track.mid = mid then { e with lastKeyframeRequest := some now } :: rest
    else e :: markKeyframeRequest mid now rest

def propagateBwe (peerId : ClientId) (bwe : BweKind) : Propagated :=
  .bandwidthEstimate peerId
    (match bwe with
      | .twcc bitrate | .remb _ bitrate => bitrate
      | .unknown => 0)

def propagatePeerStats (peerId : ClientId) (egressLossFraction : Option ℚ)
    (rtt : Option Duration) : Propagated :=
  .rtcpStats peerId ⟨egressLossFraction.getD 0, rtt.getD 0, 0⟩

namespace Client

/-- `Client::new` with the id it draws; it touches the drop counter of its handle. -/
def new (id : ClientId) (rtc : Rtc) (metrics : MetricsHandle) : Client × List MetricCall :=
  ({ id, rtc, metrics
     origin := .locally
     inSpeakerDetector := false
     tracksIn := []
     tracksOut := []
     chosenRid := none
     desiredLayer := .low
     activeRids := []
     midToKind := ∅
     deliveredMedia := 0
     deliveredActiveSpeaker := 0
     pacer := .new
     suspended := false
     lastPacerDrive := none
     maxTemporalLayer := 255
     maxVfmTemporalLayer := 255 }, [.withLabelValues .videoFramesDropped id.raw])

def isAlive (c : Client) : Bool := c.rtc.alive

def isRelay (c : Client) : Bool :=
  match c.origin with
  | .relayFromSfu _ => true
  | .locally => false

def setOrigin (c : Client) (origin : ClientOrigin) : Client := { c with origin }

/-- The allocations this client keeps alive. -/
def arcs (c : Client) : List ArcTrack := c.tracksIn.map (·.id)

def setDesiredLayer (c : Client) (rid : SfuRid) : Client :=
  { c with desiredLayer := rid, chosenRid := none }

def setSuspended (c : Client) (suspended : Bool) : Client := { c with suspended }

def setMaxTemporalLayer (c : Client) (max : UInt8) : Client := { c with maxTemporalLayer := max }

def setMaxVfmTemporalLayer (c : Client) (max : UInt8) : Client :=
  { c with maxVfmTemporalLayer := max }

def drivePacer (c : Client) (bps : ℕ) : Client × PacerAction :=
  let (pacer, action) := c.pacer.update bps
  let c := { c with pacer }
  match action with
  | .changeLayer rid => (c.setDesiredLayer rid, action)
  | _ => (c, action)

def pacerTickReady (c : Client) (now : Instant) (minInterval : Duration) : Client × Bool :=
  match c.lastPacerDrive with
  | some last =>
    if durationSince now last < minInterval then (c, false)
    else ({ c with lastPacerDrive := some now }, true)
  | none => ({ c with lastPacerDrive := some now }, true)

def handleTrackOpen (c : Client) (trackIn : WeakTrack) : Client :=
  { c with tracksOut := c.tracksOut ++ [⟨trackIn, .toOpen⟩] }

/-- `Client::track_in_added`, where the new allocation lands at `addr`. -/
def trackInAdded (c : Client) (addr : WeakTrack) (mid : SfuMid) (kind : MediaKind) :
    Client × Propagated :=
  let entry : TrackInEntry :=
    { id := ⟨addr, { origin := c.id, mid, kind, relaySource := c.isRelay }⟩
      lastKeyframeRequest := none }
  ({ c with midToKind := c.midToKind.insert mid kind
            tracksIn := c.tracksIn ++ [entry] }, .trackOpen c.id entry.id.downgrade)

def requestKeyframeThrottled (c : Client) (now : Instant) (mid : SfuMid) (rid : Option SfuRid)
    (kind : SfuKeyframeKind) : Client × List MetricCall :=
  match c.rtc.writer mid, c.tracksIn.find? (fun t => t.id.track.mid = mid) with
  | some _, some entry =>
    if entry.lastKeyframeRequest.any fun t => durationSince now t < keyframeRequestMinGap then
      (c, [])
    else
      let rtc := { c.rtc with keyframeCalls := ⟨now, mid, rid, kind⟩ :: c.rtc.keyframeCalls }
      ({ c with rtc, tracksIn := markKeyframeRequest mid now c.tracksIn },
        if kind = .pli then [.inc (.rtcpPli .outbound)] else [])
  | _, _ => (c, [])

def trackInMedia (c : Client) (now : Instant) (data : MediaData) :
    Client × Propagated × List MetricCall :=
  let (c, calls) :=
    if data.contiguous then (c, []) else c.requestKeyframeThrottled now data.mid data.rid .fir
  let c :=
    match data.rid with
    | some rid => { c with activeRids := insertRid c.activeRids rid }
    | none => c
  let kindLabel := ((c.midToKind.lookup data.mid).map MediaKind.label).getD .video
  (c, .mediaData c.id (.fromStr0m data),
    calls ++ [.inc (.trackBytes .inbound kindLabel data.data.length)])

def incomingKeyframeReq (c : Client) (heap : List ArcTrack) (req : SfuKeyframeRequest) :
    Propagated × List MetricCall :=
  match c.tracksOut.find? fun t => t.mid = some req.mid with
  | none => (.noop, [])
  | some trackOut =>
    match upgrade heap trackOut.trackIn with
    | none => (.noop, [])
    | some trackIn =>
      let req := { req with rid := c.chosenRid }
      let calls := if req.kind = .pli then [.inc (.rtcpPli .inbound)] else []
      if trackIn.relaySource then
        (.upstreamKeyframeRequest trackIn.origin req trackIn.mid, calls)
      else (.keyframeRequest c.id req trackIn.origin trackIn.mid, calls)

def handleKeyframeRequest (c : Client) (now : Instant) (req : SfuKeyframeRequest)
    (midIn : SfuMid) : Client :=
  if c.tracksIn.any fun i => i.id.track.mid = midIn then
    match c.rtc.writer midIn with
    | some _ =>
      let calls := ⟨now, midIn, req.rid, req.kind⟩ :: c.rtc.keyframeCalls
      { c with rtc := { c.rtc with keyframeCalls := calls } }
    | none => c
  else c

def handleEvent (c : Client) (heap : List ArcTrack) (addr : WeakTrack) (now : Instant) :
    Event → Client × Propagated × List MetricCall
  | .iceDisconnected => ({ c with rtc := c.rtc.disconnect }, .noop, [])
  | .mediaAdded mid kind =>
    ((c.trackInAdded addr mid kind).1, (c.trackInAdded addr mid kind).2, [])
  | .mediaData data => c.trackInMedia now data
  | .keyframeRequest req => (c, c.incomingKeyframeReq heap req)
  | .egressBitrateEstimate bwe => (c, propagateBwe c.id bwe, [])
  | .peerStats loss rtt => (c, propagatePeerStats c.id loss rtt, [])
  | .other => (c, .noop, [])

/-- `Client::poll_output`, given what str0m returns. -/
def pollOutput (c : Client) (heap : List ArcTrack) (addr : WeakTrack) (now : Instant)
    (result : PollResult) : Client × Propagated × List MetricCall :=
  if c.isAlive then
    match result with
    | some .transmit => (c, .noop, [])
    | some (.timeout t) => (c, .timeout t, [])
    | some (.event e) => c.handleEvent heap addr now e
    | none => ({ c with rtc := c.rtc.disconnect }, .noop, [])
  else (c, .noop, [])

/-- Whether a `tracks_out` entry is a live subscription to this track. -/
def matchesTrack (heap : List ArcTrack) (origin : ClientId) (mid : SfuMid) (o : TrackOut) : Bool :=
  (upgrade heap o.trackIn).any fun i => i.origin = origin ∧ i.mid = mid

/-- The media kind the suspended-state filter sees: unknown counts as video. -/
def isVideoTrack (c : Client) (heap : List ArcTrack) (origin : ClientId) (mid : SfuMid) : Bool :=
  (c.tracksOut.findSome? fun o =>
    (upgrade heap o.trackIn).bind fun i =>
      if i.origin = origin ∧ i.mid = mid then some (decide (i.kind = .video)) else none).getD true

/-- The simulcast filter. The active RIDs are those of the receiving client itself. -/
def layerAccepts (c : Client) (data : SfuMediaPayload) : Bool :=
  match data.rid with
  | none => true
  | some rid => decide (rid = BestFitSelector.select c.desiredLayer c.activeRids)

/-- The two temporal-layer caps. -/
def temporalAccepts (c : Client) (data : SfuMediaPayload) : Bool :=
  data.av1Dd.all (fun dd => decide (dd.temporalId ≤ c.maxTemporalLayer)) &&
    data.vfmFm.all fun fm => decide (fm.temporalId ≤ c.maxVfmTemporalLayer)

/-- The `kind` label of a forwarded packet. -/
def kindLabel (c : Client) (heap : List ArcTrack) (origin : ClientId) (mid : SfuMid) : KindLabel :=
  match c.tracksOut.find? (matchesTrack heap origin mid) with
  | some o => ((upgrade heap o.trackIn).map fun t => t.kind.label).getD .other
  | none => .other

/-- The part of `handle_media_data_out` after the filters, up to the writer. -/
def countForwarded (c : Client) (heap : List ArcTrack) (origin : ClientId)
    (data : SfuMediaPayload) : Client × List MetricCall :=
  let label := c.kindLabel heap origin data.mid
  let bytes : List MetricCall :=
    if label = .other then [] else [.inc (.trackBytes .outbound label data.data.length)]
  let layer : List MetricCall :=
    match data.rid with
    | some rid => [.inc (.layerSelection (ridLabel rid))]
    | none => []
  ({ c with deliveredMedia := c.deliveredMedia + 1 },
    .inc (.forwardedPackets label) :: (bytes ++ layer))

/-- The writer stage of `handle_media_data_out`. -/
def writeOut (c : Client) (heap : List ArcTrack) (origin : ClientId) (data : SfuMediaPayload) :
    Client :=
  match (c.tracksOut.find? (matchesTrack heap origin data.mid)).bind TrackOut.mid with
  | none => c
  | some mid =>
    let c :=
      if data.rid.isSome ∧ c.chosenRid ≠ data.rid then { c with chosenRid := data.rid } else c
    match (c.rtc.writer mid).bind fun w => (w.matchParams data.params).map (w, ·) with
    | none => c
    | some (w, pt) =>
      if w.writable then
        let call : WriteCall := ⟨mid, pt, data.networkTime, data.time, data.data, data.keyEpoch⟩
        { c with rtc := { c.rtc with written := call :: c.rtc.written } }
      else { c with rtc := c.rtc.disconnect }

def handleMediaDataOut (c : Client) (heap : List ArcTrack) (origin : ClientId)
    (data : SfuMediaPayload) : Client × List MetricCall :=
  if c.suspended && c.isVideoTrack heap origin data.mid then
    (c, [.inc (.videoFramesDropped c.id.raw)])
  else if c.layerAccepts data then
    if c.temporalAccepts data then
      let (c, calls) := c.countForwarded heap origin data
      (c.writeOut heap origin data, calls)
    else (c, [])
  else (c, [])

/-- `Client::handle_active_speaker_changed`, as the `test-utils` build counts it. -/
def handleActiveSpeakerChanged (c : Client) (_peerId : ℕ) : Client :=
  { c with deliveredActiveSpeaker := c.deliveredActiveSpeaker + 1 }

end Client
end SfuKit
