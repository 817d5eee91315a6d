import SfuKit.Model.DriveFrame

/-! # The layer a keyframe request targets

A subscriber remembers one RID, that of the last simulcast packet forwarded to it, and puts
it into the keyframe request for whatever track its decoder has stalled on.
-/
namespace SfuKit

open Library

/-- A packet of the track `mid` of `origin`, as far as layers are concerned. -/
structure Forwarded where
  origin : ClientId
  mid : SfuMid
  rid : Option SfuRid
deriving DecidableEq, Repr

def lastRid (l : List Forwarded) : Option SfuRid := (l.filterMap (·.rid)).getLast?

def ofTrack (origin : ClientId) (mid : SfuMid) (l : List Forwarded) : List Forwarded :=
  l.filter fun x => x.origin = origin ∧ x.mid = mid

@[simp] theorem lastRid_concat (l : List Forwarded) (x : Forwarded) :
    lastRid (l ++ [x]) = x.rid.or (lastRid l) := by
  rw [lastRid, List.filterMap_append]
  cases h : x.rid <;> simp [h, lastRid]

namespace Client
variable (c : Client) (heap : List ArcTrack)

/-- The packet passes the filters and its track is open towards the subscriber. -/
def forwards (origin : ClientId) (data : SfuMediaPayload) : Bool :=
  c.passesFilters heap origin data &&
    ((c.tracksOut.find? (matchesTrack heap origin data.mid)).bind TrackOut.mid).isSome

theorem writeOut_chosenRid (origin : ClientId) (data : SfuMediaPayload) :
    (c.writeOut heap origin data).chosenRid =
      if ((c.tracksOut.find? (matchesTrack heap origin data.mid)).bind TrackOut.mid).isSome then
        data.rid.or c.chosenRid
      else c.chosenRid := by
  unfold writeOut
  cases ((c.tracksOut.find? (matchesTrack heap origin data.mid)).bind TrackOut.mid) with
  | none => rfl
  | some mid =>
    have hset : (if data.rid.isSome = true ∧ c.chosenRid ≠ data.rid then
        { c with chosenRid := data.rid } else c).chosenRid = data.rid.or c.chosenRid := by
      cases hr : data.rid with
      | none => rfl
      | some rid =>
        split_ifs with h
        · rfl
        · simpa using h
    rw [Option.isSome_some, if_pos rfl, ← hset]
    dsimp only
    generalize (if data.rid.isSome = true ∧ c.chosenRid ≠ data.rid then
      { c with chosenRid := data.rid } else c) = c'
    split
    · rfl
    · split_ifs <;> rfl

theorem handleMediaDataOut_chosenRid (origin : ClientId) (data : SfuMediaPayload) :
    (c.handleMediaDataOut heap origin data).1.chosenRid =
      if c.forwards heap origin data then data.rid.or c.chosenRid else c.chosenRid := by
  unfold handleMediaDataOut forwards passesFilters
  cases c.suspended && c.isVideoTrack heap origin data.mid with
  | true => rfl
  | false =>
    cases c.layerAccepts data with
    | false => rfl
    | true =>
      cases c.temporalAccepts data with
      | false => rfl
      | true => exact writeOut_chosenRid (c.countForwarded heap origin data).1 heap origin data

/-- SDP negotiation opens the entry of a track towards the subscriber. -/
def negotiated (trackIn : WeakTrack) (mid : SfuMid) : Client :=
  { c with tracksOut := c.tracksOut.map fun o =>
      if o.trackIn = trackIn then { o with state := .opened mid } else o }

end Client

/-- The track that a keyframe request goes to, with the RID it asks for. -/
def Propagated.keyframeTarget : Propagated → Option Forwarded
  | .keyframeRequest _ req source mid | .upstreamKeyframeRequest source req mid =>
    some ⟨source, mid, req.rid⟩
  | _ => none

inductive SubscriberOp where
  | trackOpen (trackIn : WeakTrack)
  | negotiated (trackIn : WeakTrack) (mid : SfuMid)
  | media (heap : List ArcTrack) (origin : ClientId) (data : SfuMediaPayload)
  | setDesiredLayer (rid : SfuRid)
  | drivePacer (bps : ℕ)
  | setSuspended (suspended : Bool)
  | poll (heap : List ArcTrack) (addr : WeakTrack) (now : Instant) (result : PollResult)

/-- A subscriber, with the packets forwarded to it, in all and since its desired layer was
last set. -/
structure Subscriber where
  client : Client
  forwarded : List Forwarded
  recent : List Forwarded

namespace Subscriber

def start (c : Client) : Subscriber := ⟨{ c with chosenRid := none }, [], []⟩

def step (s : Subscriber) : SubscriberOp → Subscriber
  | .trackOpen trackIn => { s with client := s.client.handleTrackOpen trackIn }
  | .negotiated trackIn mid => { s with client := s.client.negotiated trackIn mid }
  | .media heap origin data =>
    let new : List Forwarded :=
      if s.client.forwards heap origin data then [⟨origin, data.mid, data.rid⟩] else []
    { client := (s.client.handleMediaDataOut heap origin data).1
      forwarded := s.forwarded ++ new
      recent := s.recent ++ new }
  | .setDesiredLayer rid => { s with client := s.client.setDesiredLayer rid, recent := [] }
  | .drivePacer bps =>
    let (client, action) := s.client.drivePacer bps
    match action with
    | .changeLayer _ => { s with client, recent := [] }
    | _ => { s with client }
  | .setSuspended suspended => { s with client := s.client.setSuspended suspended }
  | .poll heap addr now result =>
    { s with client := (s.client.pollOutput heap addr now result).1 }

/-- The request that the subscriber makes of str0m asks for the last forwarded layer of the
track it goes to, or for none. -/
def TargetsOwnTrack (s : Subscriber) (heap : List ArcTrack) (req : SfuKeyframeRequest) : Prop :=
  ∀ target ∈ (s.client.incomingKeyframeReq heap req).1.keyframeTarget, target.rid = none ∨
    ∃ last ∈ (ofTrack target.origin target.mid s.forwarded).getLast?, last.rid = target.rid

instance (s : Subscriber) (heap : List ArcTrack) (req : SfuKeyframeRequest) :
    Decidable (s.TargetsOwnTrack heap req) :=
  inferInstanceAs (Decidable (∀ target ∈ _, _ ∨ ∃ last ∈ _, _))

/-- The last RID forwarded to the subscriber since its layer was set, if there is one, is that
of the last packet forwarded of the requested track. -/
def LastOfTrack (s : Subscriber) (heap : List ArcTrack) (req : SfuKeyframeRequest) : Prop :=
  ∀ o ∈ s.client.tracksOut.find? fun t => t.mid = some req.mid, ∀ t ∈ upgrade heap o.trackIn,
    ∀ rid ∈ lastRid s.recent, ∃ last ∈ (ofTrack t.origin t.mid s.forwarded).getLast?,
      last.rid = some rid

/-- The remembered RID is that of the last simulcast packet since the layer was set. -/
def Remembers (s : Subscriber) : Prop := s.client.chosenRid = lastRid s.recent

theorem Remembers.step {s : Subscriber} (h : s.Remembers) (op : SubscriberOp) :
    (s.step op).Remembers := by
  cases op with
  | media heap origin data =>
    simp only [Remembers, Subscriber.step, Client.handleMediaDataOut_chosenRid]
    split_ifs
    · rw [lastRid_concat, h]
    · rw [List.append_nil]
      exact h
  | setDesiredLayer rid => rfl
  | drivePacer bps =>
    simp only [Subscriber.step, Client.drivePacer]
    cases (s.client.pacer.update bps).2 with
    | changeLayer rid => rfl
    | _ => exact h
  | poll heap addr now result =>
    obtain ⟨_, _, _, _, hc⟩ := s.client.pollOutput_eq heap addr now result
    simp only [Remembers, Subscriber.step, hc]
    exact h
  | _ => exact h

theorem targetsOwnTrack_iff {s : Subscriber} (h : s.Remembers) (heap : List ArcTrack)
    (req : SfuKeyframeRequest) : s.TargetsOwnTrack heap req ↔ s.LastOfTrack heap req := by
  have hrid : ∀ t : TrackIn, ((lastRid s.recent = none ∨
      ∃ last ∈ (ofTrack t.origin t.mid s.forwarded).getLast?, last.rid = lastRid s.recent) ↔
      ∀ rid ∈ lastRid s.recent, ∃ last ∈ (ofTrack t.origin t.mid s.forwarded).getLast?,
        last.rid = some rid) := by
    intro t
    cases lastRid s.recent <;> simp
  unfold TargetsOwnTrack LastOfTrack Client.incomingKeyframeReq
  cases s.client.tracksOut.find? fun t => t.mid = some req.mid with
  | none => simp [Propagated.keyframeTarget]
  | some o =>
    dsimp only
    cases ht : upgrade heap o.trackIn with
    | none => simp [Propagated.keyframeTarget, ht]
    | some t =>
      have htarget := hrid t
      rw [← h] at htarget
      cases hr : t.relaySource with
      | true => simpa [hr, ht, Propagated.keyframeTarget, h.symm] using htarget
      | false => simpa [hr, ht, Propagated.keyframeTarget, h.symm] using htarget

/-- After any operations on any client, a keyframe request asks for the last forwarded layer
of its own track, or for none, exactly if the last RID forwarded since the layer was set, on
whatever track, is that of the last packet forwarded of the requested one. -/
theorem targetsOwnTrack_run_iff (c : Client) (ops : List SubscriberOp) (heap : List ArcTrack)
    (req : SfuKeyframeRequest) :
    (Run.run step (start c) ops).TargetsOwnTrack heap req ↔
      (Run.run step (start c) ops).LastOfTrack heap req := by
  have h0 : (start c).Remembers := rfl
  have hstep : ∀ s op, Remembers s → Remembers (step s op) := fun _ op hs => hs.step op
  have hr := Run.invariant_all hstep ops h0
  exact targetsOwnTrack_iff hr heap req

/-- Two peers' video tracks, only one of them layered. -/
def twoVideoTracks : List ArcTrack :=
  [⟨0, ⟨⟨0⟩, ⟨0⟩, .video, false⟩⟩, ⟨1, ⟨⟨1⟩, ⟨0⟩, .video, false⟩⟩]

/-- Both tracks are open and a packet of each is forwarded. -/
def bothForwarded : List SubscriberOp :=
  [.trackOpen 0, .trackOpen 1, .negotiated 0 ⟨5⟩, .negotiated 1 ⟨6⟩,
    .media twoVideoTracks ⟨0⟩
      ⟨⟨0⟩, ⟨96⟩, some .low, [], 0, true, ⟨0, 90000⟩, ⟨0, true⟩, none, none, none, none⟩,
    .media twoVideoTracks ⟨1⟩
      ⟨⟨0⟩, ⟨96⟩, none, [], 0, true, ⟨0, 90000⟩, ⟨0, true⟩, none, none, none, none⟩]

/-- The request for the layerless track asks for the layer of the other. -/
theorem targetsOwnTrack_fails : ¬ (Run.run step
    (start (Client.new ⟨2⟩ ⟨true, [⟨⟨5⟩, [(⟨0, true⟩, ⟨96⟩)], true⟩,
      ⟨⟨6⟩, [(⟨0, true⟩, ⟨96⟩)], true⟩], [], []⟩ .throwaway).1) bothForwarded).TargetsOwnTrack
    twoVideoTracks ⟨⟨6⟩, none, .pli⟩ := by
  decide

end Subscriber
end SfuKit
