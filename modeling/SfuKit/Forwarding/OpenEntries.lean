import SfuKit.Tracks.CrossAdvertisement
import SfuKit.Tracks.Evolution

/-! # Entries that nothing opens

An announced track gets an entry that is yet to be opened. The writer stage looks for an
entry that has a media line, but no operation ever gives it one.
-/
namespace SfuKit

open Library

/-- The methods that the application can call on a client it holds, beyond those that are
operations of the process. An inserted client it can only read. -/
inductive ClientCall where
  | handleTrackOpen (trackIn : WeakTrack)
  | handleMediaDataOut (origin : ClientId) (data : SfuMediaPayload)
  | handleKeyframeRequest (clock : Instant) (req : SfuKeyframeRequest) (midIn : SfuMid)
  | handleActiveSpeakerChanged (peerId : ℕ)
  | drivePacer (bps : ℕ)
  | setSuspended (suspended : Bool)
  | setMaxTemporalLayer (max : UInt8)
  | setMaxVfmTemporalLayer (max : UInt8)

inductive Call where
  | operation (op : Op)
  | method (id : ClientId) (call : ClientCall)

namespace Client
variable (c : Client) (heap : List ArcTrack)

def call : ClientCall → Client × List MetricCall
  | .handleTrackOpen trackIn => (c.handleTrackOpen trackIn, [])
  | .handleMediaDataOut origin data => c.handleMediaDataOut heap origin data
  | .handleKeyframeRequest clock req midIn => (c.handleKeyframeRequest clock req midIn, [])
  | .handleActiveSpeakerChanged peerId => (c.handleActiveSpeakerChanged peerId, [])
  | .drivePacer bps => ((c.drivePacer bps).1, [])
  | .setSuspended suspended => (c.setSuspended suspended, [])
  | .setMaxTemporalLayer max => (c.setMaxTemporalLayer max, [])
  | .setMaxVfmTemporalLayer max => (c.setMaxVfmTemporalLayer max, [])

/-- No entry is opened, or being opened. -/
def Unopened : Prop := ∀ o ∈ c.tracksOut, o.state = .toOpen

variable {c}

theorem Evolves.unopened {c' : Client} (h : c.Evolves c') (hc : c.Unopened) : c'.Unopened := by
  obtain ⟨known, hout, hknown⟩ := h.entries
  rw [Unopened, hout, List.forall_mem_append]
  exact ⟨hc, hknown⟩

theorem call_evolves (x : ClientCall) : c.Evolves (c.call heap x).1 := by
  cases x with
  | handleTrackOpen trackIn => exact handleTrackOpen_evolves c trackIn
  | handleMediaDataOut origin data => exact handleMediaDataOut_evolves c heap origin data
  | handleKeyframeRequest clock req midIn => exact handleKeyframeRequest_evolves c clock req midIn
  | drivePacer bps =>
    obtain ⟨_, _, h⟩ := c.drivePacer_eq bps
    simp only [call, h]
    exact .of_eq rfl rfl rfl rfl
  | _ => exact .of_eq rfl rfl rfl rfl

/-- A packet for a client without an open entry does not get as far as its writer. -/
theorem Unopened.handleMediaDataOut_rtc (h : c.Unopened) (origin : ClientId)
    (data : SfuMediaPayload) : (c.handleMediaDataOut heap origin data).1.rtc = c.rtc := by
  have hmid : (c.tracksOut.find? (matchesTrack heap origin data.mid)).bind TrackOut.mid = none := by
    cases ho : c.tracksOut.find? (matchesTrack heap origin data.mid) with
    | none => rfl
    | some o =>
      rw [Option.bind_some, TrackOut.mid, h o (List.mem_of_find?_eq_some ho)]
  unfold Client.handleMediaDataOut
  split_ifs
  · rfl
  · simp only [writeOut, countForwarded, hmid]
  · rfl
  · rfl

end Client

namespace Process
variable {D : Type*}

def callHeld (p : Process D) (id : ClientId) (x : ClientCall) : Process D :=
  match p.heldAt id with
  | none => p
  | some (j, c) =>
    let (called, calls) := c.call (p.clients.flatMap Client.arcs) x
    { p with held := p.held.set j called }.metricsCalls c.metrics calls

def Unopened (p : Process D) : Prop := ∀ c ∈ p.clients, c.Unopened

instance (p : Process D) : Decidable p.Unopened :=
  inferInstanceAs (Decidable (∀ c ∈ p.clients, ∀ o ∈ c.tracksOut, o.state = .toOpen))

theorem Unopened.callHeld {p : Process D} (h : p.Unopened) (id : ClientId) (x : ClientCall) :
    (p.callHeld id x).Unopened := by
  unfold Process.callHeld
  cases hx : p.heldAt id with
  | none => exact h
  | some y =>
    obtain ⟨j, c⟩ := y
    have hc : c ∈ p.held := List.mem_of_getElem? (heldAt_eq_some hx).1
    intro d hd
    simp only [clients, metricsCalls_clients] at hd
    rcases List.mem_append.mp hd with hd | hd
    · exact h d (List.mem_append_left _ hd)
    · rcases List.mem_or_eq_of_mem_set hd with hd | rfl
      · exact h d (List.mem_append_right _ hd)
      · exact (Client.call_evolves _ x).unopened (h c (List.mem_append_right _ hc))

variable [ActiveSpeakerDetector D] (F : Features)

def act (p : Process D) : Call → Process D
  | .operation op => p.step F op
  | .method id x => p.callHeld id x

/-- Some calls open entry `k` of the client `id`. -/
def Openable (p : Process D) (id : ClientId) (k : ℕ) : Prop :=
  ∃ calls, ∃ c ∈ (Run.run (act F) p calls).clients, c.id = id ∧
    ∃ o ∈ c.tracksOut[k]?, ∃ mid, o.state = .opened mid

theorem Unopened.step {p : Process D} (h : p.Unopened) (op : Op) : (p.step F op).Unopened := by
  intro c' hc'
  rcases p.mem_clients_step F hc' with ⟨c, hc, he, -⟩ | ⟨c, hc, origin, -, rfl⟩ |
    ⟨rtc, metrics, -, rfl⟩
  · exact he.unopened (h c hc)
  · exact h c hc
  · exact fun o ho => absurd ho List.not_mem_nil

theorem unopened_run {p : Process D} (h : p.Unopened) (calls : List Call) :
    (Run.run (act F) p calls).Unopened := by
  have hstep : ∀ (p : Process D) (x : Call), p.Unopened → (p.act F x).Unopened := by
    intro p x hp
    cases x with
    | operation op => exact hp.step F op
    | method id x => exact hp.callHeld id x
  exact Run.invariant_all hstep calls h

theorem Unopened.not_openable {p : Process D} (h : p.Unopened) (id : ClientId) (k : ℕ) :
    ¬ p.Openable F id k := by
  rintro ⟨calls, c, hc, -, o, ho, mid, hopen⟩
  rw [unopened_run F h calls c hc o (List.mem_of_getElem? ho)] at hopen
  cases hopen

theorem unopened_start (now : Instant) : (start now : Process D).Unopened :=
  fun _ hc => absurd hc List.not_mem_nil

/-- Whatever the application calls, no entry is or can be opened, and no packet gets to a
writer. -/
theorem not_openable_run (now : Instant) (calls : List Call) :
    (∀ id k, ¬ (Run.run (act F) (start now : Process D) calls).Openable F id k) ∧
      ∀ c ∈ (Run.run (act F) (start now : Process D) calls).clients, ∀ heap origin data,
        (c.handleMediaDataOut heap origin data).1.rtc = c.rtc := by
  have h := unopened_run F (unopened_start now : (start now : Process D).Unopened) calls
  refine ⟨h.not_openable F, fun c hc heap origin data => ?_⟩
  exact (h c hc).handleMediaDataOut_rtc heap origin data

/-- Client 1 has heard of a track of client 0, both are alive, and the entry stays as it is. -/
theorem not_openable_announced :
    let p := run .full (start 0 : Process PeerDetector)
      [.clientNew .new .throwaway, .clientNew .new .throwaway, .insert ⟨0⟩ 0, .insert ⟨1⟩ 0,
        .pollAll 0 (openFirst ⟨0⟩), .fanoutPending 0]
    (∃ s ∈ p.reg.clients, s.id = ⟨1⟩ ∧ s.tracksOut[0]? = some ⟨0, .toOpen⟩) ∧
      (∃ c ∈ p.reg.clients, c.isAlive = true ∧ c.arcs = [⟨0, ⟨c.id, ⟨0⟩, .video, false⟩⟩]) ∧
      ¬ p.Openable .full ⟨1⟩ 0 := by
  refine ⟨by decide, by decide, ?_⟩
  apply Unopened.not_openable
  decide

end Process
end SfuKit
