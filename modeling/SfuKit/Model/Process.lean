import SfuKit.Model.Drive
import SfuKit.Library.Run

/-! # Runs of the process

The application builds clients, configures and polls them while it holds them,
inserts them into the registry, and drives the registry. `Op` is one such call,
or one change of a connection that str0m makes on its own; the id counter and
the allocator are the process-wide state behind `Client::new` and `Arc::new`.
-/
namespace SfuKit

structure Process (D : Type*) where
  reg : Registry D
  /-- Clients the application has built and not yet inserted. -/
  held : List Client
  /-- `ID_COUNTER`. -/
  idCounter : ℕ
  /-- The address of the next allocation. -/
  nextAlloc : WeakTrack

inductive Op where
  | clientNew (rtc : Rtc) (metrics : MetricsHandle)
  /-- `poll_output` on a client the application still holds; the event is dropped. -/
  | heldPoll (id : ClientId) (clock : Instant) (result : PollResult)
  | setOrigin (id : ClientId) (origin : ClientOrigin)
  | setDesiredLayer (id : ClientId) (rid : SfuRid)
  /-- Signalling, datagrams and timeouts: str0m renegotiates writers or gives up. -/
  | connection (id : ClientId) (alive : Bool) (writers : List Writer)
  | dropHeld (id : ClientId)
  | insert (id : ClientId) (now : Instant)
  | pollAll (now : Instant) (feed : Feed)
  | fanoutPending (now : Instant)
  | updatePacerLayers (origin : ClientId) (now : Instant)
  | emitPublisherLayerHints
  | reapDead
  | onTwccFeedback (subscriber : ClientId) (feedback : TwccFeedback) (now : Instant)
  | recordSendTime (subscriber : ClientId) (seq : ℕ) (sentAt : Instant)
  | recordNativeEstimate (subscriber : ClientId) (bps : F64 ℚ)
  /-- A browser's budget hint enters the queue. -/
  | clientBudgetHint (subscriber : ClientId) (bps : ℕ)
  | enableGoogcc (subscriber : ClientId)
  /-- `on_receive` through `googcc_ceiling_for_subscriber_mut`. -/
  | googccOnReceive (subscriber : ClientId) (arrivalMs sendMs loss : ℚ)
  | recordAudioLevel (peerId levelRaw : ℕ) (now : Instant)
  | tickActiveSpeaker (now : Instant)
  | tickSpeakerScores

def Op.inserted : Op → Option ClientId
  | .insert id _ => some id
  | _ => none

def updateClient (id : ClientId) (f : Client → Client) (l : List Client) : List Client :=
  l.map fun c => if c.id = id then f c else c

/-- A connection that has died stays dead. -/
def Client.connection (c : Client) (alive : Bool) (writers : List Writer) : Client :=
  { c with rtc := { c.rtc with alive := c.rtc.alive && alive, writers } }

namespace Process
variable {D : Type*}

/-- The clients of the process, inserted or held. -/
def clients (p : Process D) : List Client := p.reg.clients ++ p.held

def heldAt (p : Process D) (id : ClientId) : Option (ℕ × Client) :=
  (p.held.findIdx? fun c => c.id = id).bind fun j => p.held[j]?.map (j, ·)

def onClient (p : Process D) (id : ClientId) (f : Client → Client) : Process D :=
  { p with reg := { p.reg with clients := updateClient id f p.reg.clients }
           held := updateClient id f p.held }

/-- Calls on a metrics handle reach the registry if the handle is the registry's. -/
def metricsCalls (p : Process D) (handle : MetricsHandle) (calls : List MetricCall) : Process D :=
  match handle with
  | .throwaway => p
  | .registry => { p with reg := { p.reg with metrics := p.reg.metrics.calls calls } }

/-- Apply an estimator operation of a `kalman-bwe` build. -/
def onBandwidth (p : Process D) (f : BandwidthEstimator → BandwidthEstimator) : Process D :=
  { p with reg := { p.reg with bandwidth := f p.reg.bandwidth } }

/-- `Client::new`, drawing the next id. -/
def clientNew (p : Process D) (rtc : Rtc) (metrics : MetricsHandle) : Process D :=
  let (c, calls) := Client.new ⟨p.idCounter⟩ rtc metrics
  { p with held := p.held ++ [c], idCounter := p.idCounter + 1 }.metricsCalls metrics calls

def heldPoll (p : Process D) (id : ClientId) (clock : Instant) (result : PollResult) : Process D :=
  match p.heldAt id with
  | none => p
  | some (j, c) =>
    let (polled, _, calls) := c.pollOutput p.reg.heap p.nextAlloc clock result
    { p with held := p.held.set j polled
             nextAlloc := p.nextAlloc + 1 }.metricsCalls c.metrics calls

def dropHeld (p : Process D) (id : ClientId) : Process D :=
  match p.heldAt id with
  | none => p
  | some (j, _) => { p with held := p.held.eraseIdx j }

section Detector
variable [ActiveSpeakerDetector D]

def start (now : Instant) : Process D := ⟨.new now, [], 0, 0⟩

def insert (F : Features) (now : Instant) (p : Process D) (id : ClientId) : Process D :=
  match p.heldAt id with
  | none => p
  | some (j, c) =>
    { p with reg := p.reg.insert F now c
             held := p.held.eraseIdx j }

def pollAll (F : Features) (now : Instant) (feed : Feed) (p : Process D) : Process D :=
  let st := p.reg.pollAll F now feed p.nextAlloc
  { p with reg := st.reg, nextAlloc := st.nextAlloc }

/-- One call. An operation of a feature that is off does not exist. -/
def step (F : Features) (p : Process D) : Op → Process D
  | .clientNew rtc metrics => p.clientNew rtc metrics
  | .heldPoll id clock result => p.heldPoll id clock result
  | .setOrigin id origin => p.onClient id fun c => c.setOrigin origin
  | .setDesiredLayer id rid => p.onClient id fun c => c.setDesiredLayer rid
  | .connection id alive writers => p.onClient id fun c => c.connection alive writers
  | .dropHeld id => p.dropHeld id
  | .insert id now => p.insert F now id
  | .pollAll now feed => p.pollAll F now feed
  | .fanoutPending now => { p with reg := p.reg.fanoutPending F now }
  | .updatePacerLayers origin now =>
    if F.pacerLayersDrive then { p with reg := p.reg.updatePacerLayers origin now } else p
  | .emitPublisherLayerHints => { p with reg := p.reg.emitPublisherLayerHints }
  | .reapDead => { p with reg := p.reg.reapDead F }
  | .onTwccFeedback subscriber feedback now =>
    if F.kalmanBwe then p.onBandwidth fun b => b.onTwccFeedback subscriber feedback now else p
  | .recordSendTime subscriber seq sentAt =>
    if F.kalmanBwe then p.onBandwidth fun b => b.recordSendTime subscriber seq sentAt else p
  | .recordNativeEstimate subscriber bps =>
    if F.kalmanBwe then p.onBandwidth fun b => b.recordNativeEstimate subscriber bps else p
  | .clientBudgetHint subscriber bps => { p with reg := p.reg.push (.clientBudgetHint subscriber bps) }
  | .enableGoogcc subscriber =>
    if F.googccBwe then p.onBandwidth fun b => b.enableGoogccForSubscriber subscriber else p
  | .googccOnReceive subscriber arrivalMs sendMs loss =>
    if F.googccBwe then
      p.onBandwidth fun b => b.googccOnReceive subscriber arrivalMs sendMs loss
    else p
  | .recordAudioLevel peerId levelRaw now =>
    if F.activeSpeaker then { p with reg := p.reg.recordAudioLevel peerId levelRaw now } else p
  | .tickActiveSpeaker now =>
    if F.activeSpeaker then { p with reg := p.reg.tickActiveSpeaker now } else p
  | .tickSpeakerScores =>
    if F.activeSpeaker then { p with reg := p.reg.tickSpeakerScores } else p

def run (F : Features) (p : Process D) (ops : List Op) : Process D :=
  Library.Run.run (step F) p ops

end Detector

theorem heldAt_eq_some {p : Process D} {id : ClientId} {j : ℕ} {c : Client}
    (h : p.heldAt id = some (j, c)) : p.held[j]? = some c ∧ c.id = id := by
  unfold heldAt at h
  obtain ⟨k, hk, hc⟩ := Option.bind_eq_some_iff.mp h
  obtain ⟨c', hc', he⟩ := Option.map_eq_some_iff.mp hc
  obtain ⟨rfl, rfl⟩ := Prod.mk.inj he
  obtain ⟨hlt, hid, -⟩ := List.findIdx?_eq_some_iff_getElem.mp hk
  refine ⟨hc', ?_⟩
  rw [List.getElem?_eq_getElem hlt] at hc'
  obtain rfl := Option.some.inj hc'
  simpa using hid

end Process
end SfuKit
