import SfuKit.Model.Process

/-! # Datagrams

The wrappers of `net.rs` around str0m's transmits and inputs, and what a client does with a
datagram or a timeout. How str0m recognises, claims and takes an input is an answer it gives.
-/
namespace SfuKit

structure SocketAddr where
  ip : ℕ
  port : ℕ
deriving DecidableEq, Repr

/-- str0m's `Protocol`. -/
inductive Protocol where
  | udp
  | tcp
  | sslTcp
  | tls
deriving DecidableEq, Repr

inductive SfuProtocol where
  | udp
  | tcp
  | sslTcp
  | tls
deriving DecidableEq, Repr

namespace SfuProtocol

def fromStr0m : Protocol → SfuProtocol
  | .udp => .udp
  | .tcp => .tcp
  | .sslTcp => .sslTcp
  | .tls => .tls

def toStr0m : SfuProtocol → Protocol
  | .udp => .udp
  | .tcp => .tcp
  | .sslTcp => .sslTcp
  | .tls => .tls

end SfuProtocol

/-- str0m's `Transmit`. -/
structure Transmit where
  proto : Protocol
  source : SocketAddr
  destination : SocketAddr
  contents : List UInt8
deriving DecidableEq, Repr

structure IncomingDatagram where
  receivedAt : Instant
  proto : SfuProtocol
  source : SocketAddr
  destination : SocketAddr
  contents : List UInt8
deriving DecidableEq, Repr

structure OutgoingDatagram where
  proto : SfuProtocol
  source : SocketAddr
  destination : SocketAddr
  contents : List UInt8
deriving DecidableEq, Repr

def OutgoingDatagram.fromTransmit (t : Transmit) : OutgoingDatagram where
  proto := .fromStr0m t.proto
  source := t.source
  destination := t.destination
  contents := t.contents

/-- str0m's `Receive`. -/
structure Receive where
  proto : Protocol
  source : SocketAddr
  destination : SocketAddr
  contents : List UInt8
deriving DecidableEq, Repr

/-- str0m's `Input`. -/
inductive Input where
  | timeout (time : Instant)
  | receive (time : Instant) (r : Receive)
deriving DecidableEq, Repr

/-- What `Rtc::handle_input` does: whether it returns `Ok`, and the connection it leaves. -/
structure Handled where
  ok : Bool
  alive : Bool
  writers : List Writer
deriving DecidableEq, Repr

/-- str0m's answers during one call of the program. -/
structure Str0m where
  /-- Whether the bytes convert to `DatagramRecv`. -/
  recognises : List UInt8 → Bool
  /-- `Rtc::accepts` of each client's connection. -/
  accepts : ClientId → Input → Bool
  handled : ClientId → Input → Handled

/-- What `Rtc::poll_output` returns, with the datagrams. -/
inductive NetOutput where
  | transmit (t : Transmit)
  | timeout (t : Instant)
  | event (e : Event)
deriving DecidableEq, Repr

abbrev NetResult := Option NetOutput

/-- The result without the bytes of a datagram. -/
def NetOutput.output : NetOutput → Output
  | .transmit _ => .transmit
  | .timeout t => .timeout t
  | .event e => .event e

def NetResult.result (x : NetResult) : PollResult := x.map NetOutput.output

/-- What str0m returns to each client's polls, datagrams included. -/
abbrev NetFeed := ClientId → List (Instant × NetResult)

def NetFeed.feed (f : NetFeed) : Feed := fun id => (f id).map fun x => (x.1, NetResult.result x.2)

/-- The `str0m::Input::Receive` that a datagram makes, if its bytes are recognised. -/
def IncomingDatagram.input (s : Str0m) (d : IncomingDatagram) : Option Input :=
  if s.recognises d.contents then
    some (.receive d.receivedAt ⟨d.proto.toStr0m, d.source, d.destination, d.contents⟩)
  else none

namespace Client

/-- `self.rtc.handle_input(input)`, with the `disconnect` on `Err`. -/
def takeInput (c : Client) (s : Str0m) (input : Input) : Client :=
  let h := s.handled c.id input
  let c := c.connection h.alive h.writers
  if h.ok then c else { c with rtc := c.rtc.disconnect }

def handleInput (c : Client) (s : Str0m) (d : IncomingDatagram) : Client :=
  if c.isAlive then
    match d.input s with
    | none => c
    | some input => c.takeInput s input
  else c

def handleTimeout (c : Client) (s : Str0m) (time : Instant) : Client :=
  if c.isAlive then c.takeInput s (.timeout time) else c

def accepts (c : Client) (s : Str0m) (d : IncomingDatagram) : Bool :=
  match d.input s with
  | none => false
  | some input => s.accepts c.id input

end Client

namespace Registry
variable {D : Type*}

/-- `Registry::handle_incoming`, with the flag it returns. -/
def handleIncoming (s : Str0m) (now : Instant) (source destination : SocketAddr)
    (payload : List UInt8) (r : Registry D) : Registry D × Bool :=
  let datagram : IncomingDatagram := ⟨now, .udp, source, destination, payload⟩
  ({ r with clients := r.clients.replaceF fun c =>
      if c.accepts s datagram then some (c.handleInput s datagram) else none },
    r.clients.any fun c => c.accepts s datagram)

def tick (s : Str0m) (now : Instant) (r : Registry D) : Registry D :=
  { r with clients := r.clients.map fun c => c.handleTimeout s now }

end Registry

theorem Client.takeInput_eq (c : Client) (s : Str0m) (input : Input) :
    c.takeInput s input = c.connection ((s.handled c.id input).ok && (s.handled c.id input).alive)
      (s.handled c.id input).writers := by
  unfold takeInput
  cases h : (s.handled c.id input).ok <;> simp [h, Client.connection, Rtc.disconnect]

end SfuKit
