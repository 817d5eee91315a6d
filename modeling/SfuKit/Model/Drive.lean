import SfuKit.Model.Registry

/-! # The drive loop

`poll_all` with its inner loop over str0m's outputs, the two pacer drive sites,
and the drain loop of `fanout_pending`. What str0m returns is an input: each
poll comes with the clock reading at which it happens.
-/
namespace SfuKit

def applyPacerAction (action : PacerAction) (peerId : ClientId) :
    Option Propagated × Option Bool :=
  match action with
  | .goAudioOnly => (some (.audioOnlyMode peerId true), none)
  | .restoreVideo => (some (.audioOnlyMode peerId false), none)
  | .suspendVideo => (some (.suspendVideo peerId true), some true)
  | .restoreAudio => (some (.suspendVideo peerId false), some false)
  | .changeLayer _ | .noChange => (none, none)

/-- The event a recorded pacer advance put on the queue. -/
def Obs.emits : Obs → Option Propagated
  | .advance peer _ _ action _ => (applyPacerAction action peer).1
  | .delivery .. | .sample .. => none

/-- What a drive site does to one client and to the rest of the registry. -/
structure Driven where
  client : Client
  calls : List MetricCall
  events : List Propagated
  history : List Obs

namespace Driven

def skip (c : Client) : Driven := ⟨c, [], [], []⟩

end Driven

/-- The block both drive sites share: drive the pacer and apply its action. -/
def driveReading (c : Client) (now : Instant) (bps : ℕ) (signals : Option PerSubscriber) :
    Driven :=
  let (driven, action) := c.drivePacer bps
  let (event, suspend) := applyPacerAction action c.id
  { client := suspend.elim driven driven.setSuspended
    calls := suspend.elim [] fun suspended => [.inc (.suspendVideo suspended)]
    events := event.toList
    history := [.advance c.id now bps action signals] }

/-- The loop body of `update_pacer_layers`. -/
def driveSubscriber (bandwidth : BandwidthEstimator) (origin : ClientId) (now : Instant)
    (c : Client) : Driven :=
  if c.id = origin then .skip c
  else
    match bandwidth.estimateWithTerm c.id now with
    | none => .skip c
    | some (budget, term) =>
      let signals := bandwidth.subscribers.lookup c.id
      match c.pacerTickReady now pacerMinTickInterval with
      | (c, false) => { Driven.skip c with calls := [.inc .pacerTickThrottled] }
      | (c, true) =>
        let d := driveReading c now budget signals
        { d with calls := .withLabelValues .bandwidthEstimateBps c.id.raw ::
                   .withLabelValues (.bindingTerm term) c.id.raw :: d.calls }

/-- How many iterations of `fanout_pending` an event can cost among `n` clients: a packet
may make every client emit one event more. -/
def eventCost (n : ℕ) : Propagated → ℕ
  | .mediaData .. => n + 1
  | _ => 1

/-- The locals of `poll_all`, with the address the next allocation gets. -/
structure PollState (D : Type*) where
  reg : Registry D
  nextAlloc : WeakTrack
  deadline : Instant
  lastVideoTiming : Option (ℚ × ℚ)

/-- What str0m returns to each client's polls, with the clock reading of each. -/
abbrev Feed := ClientId → List (Instant × PollResult)

namespace Registry
variable {D : Type*}

def updatePacerLayers (r : Registry D) (origin : ClientId) (now : Instant) : Registry D :=
  let driven := r.clients.map (driveSubscriber r.bandwidth origin now)
  { r with clients := driven.map (·.client)
           metrics := r.metrics.calls (driven.flatMap (·.calls))
           toPropagate := r.toPropagate ++ driven.flatMap (·.events)
           history := r.history ++ driven.flatMap (·.history) }

def driveAt (r : Registry D) (i : ℕ) (d : Driven) : Registry D :=
  { r with clients := r.clients.set i d.client
           metrics := r.metrics.calls d.calls
           toPropagate := r.toPropagate ++ d.events
           history := r.history ++ d.history }

/-- The body of the loop of `fanout_pending`, for a popped event. -/
def fanoutEvent (F : Features) (now : Instant) (r : Registry D) (p : Propagated) : Registry D :=
  match p with
  | .clientBudgetHint subscriberId bps =>
    if F.kalmanBwe then
      { r with bandwidth := r.bandwidth.recordClientHint subscriberId bps now }
    else r.fanout now p
  | .mediaData origin _ =>
    (if F.pacerLayersDrive then r.updatePacerLayers origin now else r).fanout now p
  | _ => r.fanout now p

/-- One iteration of the loop of `fanout_pending`. -/
def fanoutStep (F : Features) (now : Instant) (r : Registry D) : Registry D :=
  match r.toPropagate with
  | [] => r
  | p :: rest => { r with toPropagate := rest }.fanoutEvent F now p

def drainCost (r : Registry D) : ℕ := (r.toPropagate.map (eventCost r.clients.length)).sum

/-- `Registry::fanout_pending`; `fanoutPending_toPropagate` says the loop has ended. -/
def fanoutPending (F : Features) (now : Instant) (r : Registry D) : Registry D :=
  (fanoutStep F now)^[r.drainCost] r

section Poll
variable [ActiveSpeakerDetector D]

/-- The level the detector expects: 0 is loud, 127 is silent. -/
def dbovLevel (raw : ℤ) : ℕ := (max 0 (min (-raw) 127)).toNat

/-- The `active-speaker` part of a polled packet: the live origin decides. -/
def recordPolledLevel (F : Features) (clock : Instant) (client : Client) (r : Registry D) :
    Propagated → Registry D
  | .mediaData origin data =>
    match data.audioLevel with
    | some raw =>
      if F.activeSpeaker && !client.isRelay then
        let level := dbovLevel raw
        { r with
          detector := ActiveSpeakerDetector.recordLevel r.detector origin.raw level (r.nowMs clock) }
      else r
    | none => r
  | _ => r

/-- The `googcc-bwe` part of a polled packet: remember the last video timing. -/
def videoTiming (F : Features) (now : Instant) (r : Registry D) (last : Option (ℚ × ℚ)) :
    Propagated → Option (ℚ × ℚ)
  | .mediaData _ data =>
    if F.kalmanBwe && F.googccBwe && data.isVideo then
      some (asMillisF64 (durationSince now r.bweEpoch), data.rtpSendMs)
    else last
  | _ => last

/-- The `match` of `poll_all` on what client `i`, now `client`, returned; the flag
leaves the inner loop. -/
def handlePolled (F : Features) (now clock : Instant) (i : ℕ) (client : Client)
    (st : PollState D) (p : Propagated) : PollState D × Bool :=
  match p with
  | .timeout t => ({ st with deadline := min st.deadline t }, true)
  | .noop => (st, false)
  | .bandwidthEstimate peerId bps =>
    let r := st.reg.push p
    let metrics := r.metrics.call (.withLabelValues .bandwidthEstimateBps peerId.raw)
    let r := { r with metrics }
    let r :=
      if F.pacerLayersDrive then
        { r with bandwidth := r.bandwidth.recordNativeEstimate peerId (.num bps) }
      else if F.pollAllDrives then r.driveAt i (driveReading client clock bps none)
      else r
    ({ st with reg := r }, false)
  | .rtcpStats peerId _ =>
    let r := { st.reg with metrics := st.reg.metrics.calls (updatePeerRtcp peerId.raw) }
    ({ st with reg := r.push p }, false)
  | other =>
    ({ st with reg := (st.reg.recordPolledLevel F clock client other).push other
               lastVideoTiming := st.reg.videoTiming F now st.lastVideoTiming other }, false)

/-- One iteration of the inner loop of `poll_all`, on client `i`. -/
def pollStep (F : Features) (now : Instant) (i : ℕ) (st : PollState D)
    (x : Instant × PollResult) : PollState D × Bool :=
  match st.reg.clients[i]? with
  | none => (st, true)
  | some c =>
    if c.isAlive then
      let (c, p, calls) := c.pollOutput st.reg.heap st.nextAlloc x.1 x.2
      let reg := { st.reg with clients := st.reg.clients.set i c
                               metrics := st.reg.metrics.calls calls }
      handlePolled F now x.1 i c { st with reg, nextAlloc := st.nextAlloc + 1 } p
    else (st, true)

/-- The inner loop of `poll_all` on client `i`, until str0m has a timeout. -/
def pollClient (F : Features) (now : Instant) (i : ℕ) (st : PollState D) :
    List (Instant × PollResult) → PollState D
  | [] => st
  | x :: rest =>
    match pollStep F now i st x with
    | (st, true) => st
    | (st, false) => pollClient F now i st rest

/-- The body of the outer loop of `poll_all`. -/
def pollAt (F : Features) (now : Instant) (feed : Feed) (st : PollState D) (i : ℕ) : PollState D :=
  match st.reg.clients[i]? with
  | some c => pollClient F now i st (feed c.id)
  | none => st

/-- The outer loop of `poll_all`. -/
def pollClients (F : Features) (now : Instant) (feed : Feed) (st : PollState D) : PollState D :=
  (List.range st.reg.clients.length).foldl (pollAt F now feed) st

/-- `Registry::poll_all`: the new state beside the next wake-up deadline. -/
def pollAll (F : Features) (now : Instant) (feed : Feed) (nextAlloc : WeakTrack)
    (r : Registry D) : PollState D :=
  let st := pollClients F now feed ⟨r, nextAlloc, now + fromMillis 100, none⟩
  match st.lastVideoTiming with
  | some (arrivalMs, sendMs) => { st with reg := st.reg.feedGoogcc arrivalMs sendMs }
  | none => st

end Poll
end Registry
end SfuKit
