import SfuKit.Library.Polling
import SfuKit.Model.Net

/-! # The UDP loop

`serve_socket` over a caller's registry: reap, poll, fan out, hint, flush, arm the timer, and
wait for the first of its events. Each client's `pending_out` stands beside the process, under
the client's id; what the network, the clock and str0m do is the input of an iteration.
-/
namespace SfuKit

open Library Polling

/-- `RECV_BUFFER_BYTES` and `MAX_SLEEP` of the loop. -/
def recvBufferBytes : ℕ := 2048
def maxSleep : Duration := fromMillis 100

/-- The datagrams that wait in each client's `pending_out`. -/
abbrev Outboxes := ClientId → List Transmit

/-- `pending_out.push_back` on a `Transmit`. -/
def Outboxes.queue (out : Outboxes) (id : ClientId) : NetResult → Outboxes
  | some (.transmit t) => Function.update out id (out id ++ [t])
  | _ => out

/-- `mem::take(&mut self.pending_out)`. -/
def Outboxes.clear (out : Outboxes) (id : ClientId) : Outboxes := Function.update out id []

/-- The locals of `poll_all`, with the outboxes. -/
structure NetPoll (D : Type*) where
  poll : PollState D
  pendingOut : Outboxes

abbrev SendCall := List UInt8 × SocketAddr

def OutgoingDatagram.sendCall (t : OutgoingDatagram) : SendCall := (t.contents, t.destination)

structure Server (D : Type*) where
  process : Process D
  pendingOut : Outboxes
  /-- Every `send_to` call of the loop so far, in order. -/
  sent : List SendCall
  running : Bool

/-- The branch of the `select!` that an iteration takes, with str0m's answers in it. -/
inductive Branch where
  | shutdown
  | sleepElapsed (now : Instant) (s : Str0m)
  | asoTick (now : Instant) (s : Str0m)
  | received (now : Instant) (source : SocketAddr) (wire : List UInt8) (s : Str0m)
  | recvFailed

def Branch.isShutdown : Branch → Bool
  | .shutdown => true
  | _ => false

/-- What one iteration meets: the readings of the clock, str0m's outputs and the branch. -/
structure Pass where
  pollNow : Instant
  feed : NetFeed
  fanoutNow : Instant
  sleepNow : Instant
  branch : Branch

/-- The timer armed for a deadline: at least a millisecond, at most `MAX_SLEEP`. -/
def sleepFor (deadline now : Instant) : Duration :=
  min (max (durationSince deadline now) (fromMillis 1)) maxSleep

/-- `drain_transmits` over these clients, with the datagrams it sinks. -/
def drainTransmits (clients : List Client) (out : Outboxes) : Outboxes × List OutgoingDatagram :=
  clients.foldl (fun acc c =>
    (acc.1.clear c.id, acc.2 ++ (acc.1 c.id).map OutgoingDatagram.fromTransmit)) (out, [])

namespace NetPoll
variable {D : Type*} [ActiveSpeakerDetector D] (F : Features) (now : Instant)

/-- One iteration of the inner loop of `poll_all`, with the outbox it may fill. -/
def step (i : ℕ) (st : NetPoll D) (x : Instant × NetResult) : NetPoll D × Bool :=
  match st.poll.reg.clients[i]? with
  | none => (st, true)
  | some c =>
    if c.isAlive then
      let (poll, stop) := Registry.pollStep F now i st.poll (x.1, x.2.result)
      ({ poll, pendingOut := st.pendingOut.queue c.id x.2 }, stop)
    else (st, true)

def loop : Loop (NetPoll D) (Instant × NetResult) Client ClientId where
  parties st := st.poll.reg.clients
  name := Client.id
  live := Client.isAlive
  ends x := endsPolling x.2.result
  step := step F now

end NetPoll

namespace Server
variable {D : Type*} [ActiveSpeakerDetector D] (F : Features)

/-- `reap_dead`; a dead client's outbox goes with it. -/
def reapDead (s : Server D) : Server D :=
  { s with process := { s.process with reg := s.process.reg.reapDead F }
           pendingOut := (s.process.reg.clients.filter fun c => !c.isAlive).foldl
             (fun out c => out.clear c.id) s.pendingOut }

def pollAll (now : Instant) (feed : NetFeed) (s : Server D) : Server D × Instant :=
  let start : PollState D := ⟨s.process.reg, s.process.nextAlloc, now + fromMillis 100, none⟩
  let st := (NetPoll.loop F now).round feed ⟨start, s.pendingOut⟩
  let reg := match st.poll.lastVideoTiming with
    | some (arrivalMs, sendMs) => st.poll.reg.feedGoogcc arrivalMs sendMs
    | none => st.poll.reg
  ({ s with process := { s.process with reg, nextAlloc := st.poll.nextAlloc }
            pendingOut := st.pendingOut }, st.poll.deadline)

/-- `flush_transmits`: an error of `send_to` is logged and passed over. -/
def flushTransmits (s : Server D) : Server D :=
  let (pendingOut, pending) := drainTransmits s.process.reg.clients s.pendingOut
  { s with pendingOut, sent := s.sent ++ pending.map OutgoingDatagram.sendCall }

/-- The iteration up to the `select!`, with the timer it arms. -/
def cycle (s : Server D) (x : Pass) : Server D × Duration :=
  let (s, deadline) := (s.reapDead F).pollAll F x.pollNow x.feed
  let reg := (s.process.reg.fanoutPending F x.fanoutNow).emitPublisherLayerHints
  let s := { s with process := { s.process with reg } }.flushTransmits
  (s, sleepFor deadline x.sleepNow)

def branch (localAddr : SocketAddr) (r : Registry D) : Branch → Registry D
  | .shutdown | .recvFailed => r
  | .sleepElapsed now s => r.tick s now
  | .asoTick now s =>
    if F.activeSpeaker then (r.tickActiveSpeaker now).tickSpeakerScores else r.tick s now
  | .received now source wire s =>
    (r.handleIncoming s now source localAddr (wire.take recvBufferBytes)).1

/-- An iteration of the loop of `serve_socket`; a loop that has returned does nothing. -/
def iterate (localAddr : SocketAddr) (s : Server D) (x : Pass) : Server D :=
  if s.running then
    let s := (s.cycle F x).1
    { s with process := { s.process with reg := branch F localAddr s.process.reg x.branch }
             running := !x.branch.isShutdown }
  else s

def serveSocket (process : Process D) (pendingOut : Outboxes) : Server D :=
  ⟨process, pendingOut, [], true⟩

/-- `serve`, and with it `run_udp_loop`: the loop over a registry of its own. -/
def serve (now : Instant) : Server D := serveSocket (.start now) fun _ => []

end Server
end SfuKit
