import SfuKit.Model.ClientFrame
import SfuKit.Model.Process

/-! # The gap between keyframe requests

A publisher is asked for keyframes on two paths. Requests for gaps in the inbound packets
keep the minimum gap among themselves by the clock of the track; requests relayed from
subscribers neither look at that clock nor set it.
-/
namespace SfuKit

open Library

/-- The media line a poll asks a keyframe for: that of an inbound packet that does not
continue the one before. -/
def gapMid : PollResult → Option SfuMid
  | some (.event (.mediaData data)) => if data.contiguous then none else some data.mid
  | _ => none

namespace Client
variable (c : Client) (now : Instant)

/-- A keyframe request for this media line is written: its track is open and has a writer. -/
def takesRequests (mid : SfuMid) : Bool :=
  (c.tracksIn.any fun t => t.id.track.mid = mid) && (c.rtc.writer mid).isSome

def lastRequest (mid : SfuMid) : Option Instant :=
  (c.tracksIn.find? fun t => t.id.track.mid = mid).bind (·.lastKeyframeRequest)

def RequestDue (mid : SfuMid) : Prop :=
  ∀ last ∈ c.lastRequest mid, last + keyframeRequestMinGap ≤ now

instance (mid : SfuMid) : Decidable (c.RequestDue now mid) :=
  inferInstanceAs (Decidable (∀ last ∈ c.lastRequest mid, last + keyframeRequestMinGap ≤ now))

theorem handleKeyframeRequest_eq (req : SfuKeyframeRequest) (mid : SfuMid) :
    c.handleKeyframeRequest now req mid =
      if c.takesRequests mid then
        { c with rtc := { c.rtc with
            keyframeCalls := ⟨now, mid, req.rid, req.kind⟩ :: c.rtc.keyframeCalls } }
      else c := by
  unfold handleKeyframeRequest takesRequests
  by_cases hany : (c.tracksIn.any fun t => t.id.track.mid = mid) = true
  · rw [if_pos hany, hany]
    cases c.rtc.writer mid <;> rfl
  · rw [if_neg hany]
    simp [hany]

/-- A request for a gap is written, and sets the clock, if the throttle lets it through. -/
theorem requestKeyframeThrottled_client (mid : SfuMid) (rid : Option SfuRid)
    (kind : SfuKeyframeKind) :
    (c.requestKeyframeThrottled now mid rid kind).1 =
      if c.takesRequests mid = true ∧ c.RequestDue now mid then
        { c with rtc := { c.rtc with
                   keyframeCalls := ⟨now, mid, rid, kind⟩ :: c.rtc.keyframeCalls }
                 tracksIn := markKeyframeRequest mid now c.tracksIn }
      else c := by
  have hdue : c.RequestDue now mid ↔ ¬ (c.lastRequest mid).any fun t =>
      durationSince now t < keyframeRequestMinGap := by
    have hsub : ∀ a b k : ℕ, 0 < k → (b + k ≤ a ↔ ¬ a - b < k) := by omega
    unfold RequestDue
    cases c.lastRequest mid with
    | none => simp
    | some last =>
      simp only [Option.mem_def, Option.some.injEq, forall_eq', Option.any_some, decide_eq_true_eq]
      exact hsub now last keyframeRequestMinGap (by decide)
  have hany : (c.tracksIn.any fun t => t.id.track.mid = mid) =
      (c.tracksIn.find? fun t => t.id.track.mid = mid).isSome := List.isSome_find?.symm
  simp only [hdue, takesRequests, lastRequest, hany, requestKeyframeThrottled]
  cases hw : c.rtc.writer mid with
  | none => simp
  | some w =>
    cases hf : c.tracksIn.find? fun t => t.id.track.mid = mid with
    | none => simp
    | some e =>
      simp only [Option.bind_some, Option.isSome_some, Bool.and_true, true_and]
      split_ifs <;> rfl

theorem find?_markKeyframeRequest (mid m : SfuMid) (l : List TrackInEntry) :
    (markKeyframeRequest mid now l).find? (fun t => t.id.track.mid = m) =
      (l.find? fun t => t.id.track.mid = m).map fun t =>
        if m = mid then { t with lastKeyframeRequest := some now } else t := by
  induction l with
  | nil => rfl
  | cons e rest ih =>
    unfold markKeyframeRequest
    by_cases he : e.id.track.mid = mid
    · rw [if_pos he]
      by_cases hm : m = mid
      · subst hm
        simp [he]
      · have hne : ¬ e.id.track.mid = m := fun h => hm (h.symm.trans he)
        simp only [List.find?_cons, hne, decide_false, if_neg hm]
        exact Option.map_id'.symm
    · rw [if_neg he, List.find?_cons, List.find?_cons, ih]
      by_cases hm : e.id.track.mid = m
      · have hne : ¬ m = mid := fun h => he (hm.trans h)
        simp [hm, hne]
      · simp [hm]

theorem lastRequest_mark {c' : Client} {mid : SfuMid} (h : c.takesRequests mid = true)
    (ht : c'.tracksIn = markKeyframeRequest mid now c.tracksIn) (m : SfuMid) :
    c'.lastRequest m = if m = mid then some now else c.lastRequest m := by
  unfold lastRequest
  rw [ht, find?_markKeyframeRequest]
  by_cases hm : m = mid
  · subst hm
    have hsome : (c.tracksIn.find? fun t => t.id.track.mid = m).isSome := by
      rw [List.isSome_find?]
      exact (Bool.and_eq_true_iff.mp h).1
    obtain ⟨e, he⟩ := Option.isSome_iff_exists.mp hsome
    simp [he]
  · simp [hm]

theorem trackInMedia_client (data : MediaData) :
    ∃ activeRids, (c.trackInMedia now data).1 =
      { (if data.contiguous then c
          else (c.requestKeyframeThrottled now data.mid data.rid .fir).1) with activeRids } := by
  unfold trackInMedia
  cases data.contiguous <;> cases data.rid <;> exact ⟨_, rfl⟩

/-- A poll writes a request for a gap that the throttle lets through, and no other. -/
theorem pollOutput_requests (heap : List ArcTrack) (addr : WeakTrack) (x : PollResult) :
    (∃ mid ∈ gapMid x, ∃ rid kind, c.isAlive = true ∧ c.takesRequests mid = true ∧
      c.RequestDue now mid ∧
      (c.pollOutput heap addr now x).1.rtc.keyframeCalls =
        ⟨now, mid, rid, kind⟩ :: c.rtc.keyframeCalls ∧
      ∀ m, (c.pollOutput heap addr now x).1.lastRequest m =
        if m = mid then some now else c.lastRequest m) ∨
    ((∀ mid ∈ gapMid x, ¬ (c.isAlive = true ∧ c.takesRequests mid = true ∧ c.RequestDue now mid)) ∧
      (c.pollOutput heap addr now x).1.rtc.keyframeCalls = c.rtc.keyframeCalls ∧
      ∀ m, ∀ last ∈ c.lastRequest m, last ∈ (c.pollOutput heap addr now x).1.lastRequest m) := by
  unfold pollOutput
  cases ha : c.isAlive with
  | false => exact .inr ⟨by simp, rfl, fun _ _ h => h⟩
  | true =>
    simp only [if_true, true_and]
    rcases x with - | - | t | e
    · exact .inr ⟨by simp [gapMid], rfl, fun _ _ h => h⟩
    · exact .inr ⟨by simp [gapMid], rfl, fun _ _ h => h⟩
    · exact .inr ⟨by simp [gapMid], rfl, fun _ _ h => h⟩
    · cases e with
      | mediaData data =>
        obtain ⟨_, hclient⟩ := c.trackInMedia_client now data
        simp only [handleEvent, hclient]
        cases hcont : data.contiguous with
        | true => exact .inr ⟨by simp [gapMid, hcont], rfl, fun _ _ h => h⟩
        | false =>
          rw [if_neg Bool.false_ne_true, requestKeyframeThrottled_client]
          by_cases hdue : c.takesRequests data.mid = true ∧ c.RequestDue now data.mid
          · rw [if_pos hdue]
            refine .inl ⟨data.mid, by simp [gapMid, hcont], data.rid, .fir, hdue.1, hdue.2, rfl, ?_⟩
            exact lastRequest_mark c now hdue.1 rfl
          · rw [if_neg hdue]
            refine .inr ⟨fun mid hmid => ?_, rfl, fun _ _ h => h⟩
            obtain rfl : data.mid = mid := by simpa [gapMid, hcont] using hmid
            exact hdue
      | mediaAdded mid kind =>
        refine .inr ⟨by simp [gapMid], rfl, fun m last hlast => ?_⟩
        obtain ⟨e, he, hl⟩ := Option.bind_eq_some_iff.mp hlast
        simp [handleEvent, trackInAdded, lastRequest, List.find?_append, he, hl]
      | _ => exact .inr ⟨by simp [gapMid], rfl, fun _ _ h => h⟩

end Client

/-- An input to a publisher: a poll of its connection, a request that is relayed to it, or a
change of the connection. -/
inductive PublisherOp where
  | poll (heap : List ArcTrack) (addr : WeakTrack) (result : PollResult)
  | keyframeRequest (req : SfuKeyframeRequest) (midIn : SfuMid)
  | connection (alive : Bool) (writers : List Writer)

/-- A publisher, with the relayed requests it has written, latest first. -/
structure Publisher where
  client : Client
  relayed : List KeyframeCall

namespace Publisher

def step (s : Publisher) : Instant × PublisherOp → Publisher
  | (now, .poll heap addr result) =>
    { s with client := (s.client.pollOutput heap addr now result).1 }
  | (now, .keyframeRequest req midIn) =>
    { client := s.client.handleKeyframeRequest now req midIn
      relayed :=
        if s.client.takesRequests midIn then ⟨now, midIn, req.rid, req.kind⟩ :: s.relayed
        else s.relayed }
  | (_, .connection alive writers) => { s with client := s.client.connection alive writers }

def start (id : ClientId) (writers : List Writer) (metrics : MetricsHandle) : Publisher :=
  ⟨(Client.new id ⟨true, writers, [], []⟩ metrics).1, []⟩

/-- Requests to the same track keep the minimum gap. -/
def Spaced (s : Publisher) : Prop :=
  s.client.rtc.keyframeCalls.Pairwise fun later earlier =>
    earlier.mid = later.mid → earlier.time + keyframeRequestMinGap ≤ later.time

/-- An input keeps the gap if the request it makes, when it makes one, is at least the minimum
gap later than any earlier one on its track of which one of the two is relayed. -/
def KeepsGap (s : Publisher) : Instant × PublisherOp → Prop
  | (now, .poll _ _ result) => ∀ mid ∈ gapMid result,
      s.client.isAlive = true ∧ s.client.takesRequests mid = true ∧ s.client.RequestDue now mid →
        ∀ call ∈ s.relayed, call.mid = mid → call.time + keyframeRequestMinGap ≤ now
  | (now, .keyframeRequest _ midIn) => s.client.takesRequests midIn = true →
      ∀ call ∈ s.client.rtc.keyframeCalls, call.mid = midIn →
        call.time + keyframeRequestMinGap ≤ now
  | (_, .connection _ _) => True

instance (s : Publisher) : Decidable s.Spaced := inferInstanceAs (Decidable (List.Pairwise _ _))

/-- A request is a relayed one, or not later than the clock of its track. -/
structure Clocked (s : Publisher) : Prop where
  written : ∀ call ∈ s.relayed, call ∈ s.client.rtc.keyframeCalls
  clock : ∀ call ∈ s.client.rtc.keyframeCalls,
    call ∈ s.relayed ∨ ∃ last ∈ s.client.lastRequest call.mid, call.time ≤ last

theorem clocked_start (id : ClientId) (writers : List Writer) (metrics : MetricsHandle) :
    (start id writers metrics).Clocked :=
  ⟨fun _ h => absurd h List.not_mem_nil, fun _ h => absurd h List.not_mem_nil⟩

theorem Clocked.step {s : Publisher} (h : s.Clocked) (x : Instant × PublisherOp) :
    (s.step x).Clocked := by
  obtain ⟨now, op⟩ := x
  cases op with
  | poll heap addr result =>
    rcases s.client.pollOutput_requests now heap addr result with
      ⟨mid, -, rid, kind, -, -, hdue, hcalls, hlast⟩ | ⟨-, hcalls, hlast⟩
    · refine ⟨fun call hc => ?_, fun call hc => ?_⟩
      · simp only [Publisher.step, hcalls]
        exact List.mem_cons_of_mem _ (h.written call hc)
      · simp only [Publisher.step, hcalls, hlast] at hc ⊢
        rcases List.mem_cons.mp hc with rfl | hc
        · exact .inr ⟨now, by simp, le_rfl⟩
        · refine (h.clock call hc).imp_right ?_
          rintro ⟨last, hl, hle⟩
          split_ifs with hm
          · refine ⟨now, rfl, hle.trans ?_⟩
            exact (Nat.le_add_right _ _).trans (hdue last (hm ▸ hl))
          · exact ⟨last, hl, hle⟩
    · refine ⟨fun call hc => ?_, fun call hc => ?_⟩
      · simp only [Publisher.step, hcalls]
        exact h.written call hc
      · simp only [Publisher.step, hcalls] at hc ⊢
        refine (h.clock call hc).imp_right ?_
        rintro ⟨last, hl, hle⟩
        exact ⟨last, hlast _ last hl, hle⟩
  | keyframeRequest req midIn =>
    simp only [Publisher.step, Client.handleKeyframeRequest_eq]
    split_ifs
    · refine ⟨fun call hc => ?_, fun call hc => ?_⟩
      · rcases List.mem_cons.mp hc with rfl | hc
        · exact List.mem_cons_self
        · exact List.mem_cons_of_mem _ (h.written call hc)
      · rcases List.mem_cons.mp hc with rfl | hc
        · exact .inl List.mem_cons_self
        · exact (h.clock call hc).imp_left (List.mem_cons_of_mem _)
    · exact h
  | connection alive writers => exact ⟨h.written, h.clock⟩

theorem spaced_step_iff {s : Publisher} (h : s.Clocked) (x : Instant × PublisherOp) :
    (s.step x).Spaced ↔ s.Spaced ∧ s.KeepsGap x := by
  obtain ⟨now, op⟩ := x
  cases op with
  | poll heap addr result =>
    rcases s.client.pollOutput_requests now heap addr result with
      ⟨mid, hmid, rid, kind, ha, htakes, hdue, hcalls, -⟩ | ⟨hnot, hcalls, -⟩
    · simp only [Spaced, Publisher.step, hcalls, List.pairwise_cons]
      rw [and_comm]
      refine and_congr_right fun _ => ⟨fun hall m hm _ call hc hcm => ?_, fun hrel call hc hcm => ?_⟩
      · obtain rfl : mid = m := Option.some.inj (hmid.symm.trans hm)
        exact hall call (h.written call hc) hcm
      · rcases h.clock call hc with hr | ⟨last, hl, hle⟩
        · exact hrel mid hmid ⟨ha, htakes, hdue⟩ call hr hcm
        · -- The throttle has kept the gap to its own requests.
          exact (Nat.add_le_add_right hle _).trans (hdue last (hcm ▸ hl))
    · have hkeeps : s.KeepsGap (now, .poll heap addr result) := fun mid hmid hreq =>
        absurd hreq (hnot mid hmid)
      simp only [Spaced, Publisher.step, hcalls]
      exact (and_iff_left hkeeps).symm
  | keyframeRequest req midIn =>
    simp only [Spaced, Publisher.step, Client.handleKeyframeRequest_eq, KeepsGap]
    split_ifs with htakes
    · simp only [List.pairwise_cons, htakes, forall_const]
      rw [and_comm]
    · simp [htakes]
  | connection alive writers => exact (and_iff_left trivial).symm

/-- Over any inputs, the requests to each track keep the minimum gap exactly if none comes
closer than that to a relayed one, before or after. -/
theorem spaced_run_iff (id : ClientId) (writers : List Writer) (metrics : MetricsHandle)
    (inputs : List (Instant × PublisherOp)) :
    (Run.run step (start id writers metrics) inputs).Spaced ↔
      Run.Along step KeepsGap (start id writers metrics) inputs := by
  rw [Run.run_iff_along (fun s x hs => hs.step x) (fun s x hs => spaced_step_iff hs x)
    (clocked_start id writers metrics)]
  exact and_iff_right List.Pairwise.nil

/-- A packet after a gap and a subscriber's request come at the same time. -/
theorem spaced_fails : ¬ (Run.run step (start ⟨0⟩ [⟨⟨0⟩, [], true⟩] .throwaway)
    [(0, .poll [] 0 (some (.event (.mediaAdded ⟨0⟩ .video)))),
      (0, .poll [] 1 (some (.event (.mediaData
        ⟨⟨0⟩, ⟨96⟩, none, [], 0, false, ⟨0, 90000⟩, ⟨0, true⟩, none, none⟩)))),
      (0, .keyframeRequest ⟨⟨0⟩, none, .pli⟩ ⟨0⟩)]).Spaced := by
  decide

end Publisher
end SfuKit
