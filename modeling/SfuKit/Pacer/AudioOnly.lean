import SfuKit.Library.Streak
import SfuKit.Pacer.Advances

/-! # Audio-only mode

The mode is set by the last transition of a subscriber's pacer. Of its three stages
the forwarding filter knows the suspended one, where it takes a track that it has no live
subscription to for video; in the other two a video packet is stopped only by the layer and
temporal filters.
-/
namespace SfuKit

open Library Streak

def PacerAction.isTransition : PacerAction → Bool
  | .goAudioOnly | .restoreVideo | .suspendVideo | .restoreAudio => true
  | .noChange | .changeLayer _ => false

def lastTransition (l : List Advance) : Option PacerAction :=
  ((l.map (·.action)).filter PacerAction.isTransition).getLast?

/-- Client `id` is in audio-only mode after the history. -/
def AudioOnly (id : ClientId) (h : List Obs) : Prop :=
  ∃ a ∈ lastTransition (advances id h), a ≠ .restoreVideo

def Suspended (id : ClientId) (h : List Obs) : Prop :=
  lastTransition (advances id h) = some .suspendVideo

instance (id : ClientId) (h : List Obs) : Decidable (AudioOnly id h) :=
  inferInstanceAs (Decidable (∃ a ∈ lastTransition (advances id h), a ≠ .restoreVideo))

instance (id : ClientId) (h : List Obs) : Decidable (Suspended id h) :=
  inferInstanceAs (Decidable (_ = _))

theorem Suspended.audioOnly {id : ClientId} {h : List Obs} (hs : Suspended id h) :
    AudioOnly id h := ⟨.suspendVideo, hs, by simp⟩

theorem lastTransition_concat (l : List Advance) (a : Advance) :
    lastTransition (l ++ [a]) =
      if a.action.isTransition then some a.action else lastTransition l := by
  unfold lastTransition
  rw [List.map_append, List.filter_append]
  by_cases h : a.action.isTransition = true
  · simp [h]
  · simp [h]

/-- Audio-only mode as documented: a video packet leaves the counter of a subscriber in the
mode alone, and an audio packet is counted and written as if video were not suspended. -/
def Obs.HonoursMode (kindOf : ClientId → SfuMid → MediaKind) (pre : List Obs) : Obs → Prop
  | .delivery before after heap origin data =>
    (kindOf origin data.mid = .video → AudioOnly before.id pre →
      after.deliveredMedia = before.deliveredMedia) ∧
    (kindOf origin data.mid = .audio →
      let free := ((before.setSuspended false).handleMediaDataOut heap origin data).1
      after.deliveredMedia = free.deliveredMedia ∧ after.rtc = free.rtc)
  | _ => True

/-- The layer and temporal filters of the subscriber reject the packet, if it is video and the
mode is short of suspension, and also if it is audio, video is suspended and the subscriber has
no live subscription to the track. -/
def Obs.FiltersByKind (kindOf : ClientId → SfuMid → MediaKind) (pre : List Obs) : Obs → Prop
  | .delivery before _ heap origin data =>
    (kindOf origin data.mid = .video → AudioOnly before.id pre → ¬ Suspended before.id pre →
      (before.layerAccepts data && before.temporalAccepts data) = false) ∧
    (kindOf origin data.mid = .audio → Suspended before.id pre →
      ¬ before.tracksOut.any (Client.matchesTrack heap origin data.mid) →
        (before.layerAccepts data && before.temporalAccepts data) = false)
  | _ => True

instance (kindOf : ClientId → SfuMid → MediaKind) (pre : List Obs) :
    (o : Obs) → Decidable (o.HonoursMode kindOf pre)
  | .delivery .. => inferInstanceAs (Decidable (_ ∧ _))
  | .advance .. | .sample .. => .isTrue trivial

instance (kindOf : ClientId → SfuMid → MediaKind) (pre : List Obs) :
    (o : Obs) → Decidable (o.FiltersByKind kindOf pre)
  | .delivery .. => inferInstanceAs (Decidable (_ ∧ _))
  | .advance .. | .sample .. => .isTrue trivial

/-- A transition fixes the mode, any other action keeps it. -/
theorem SubscriberPacer.update_transition (p : SubscriberPacer) (bps : ℕ) :
    (p.update bps).1.audioOnly =
      (if (p.update bps).2.isTransition then decide ((p.update bps).2 ≠ .restoreVideo)
        else p.audioOnly) ∧
    (p.update bps).1.suspended =
      if (p.update bps).2.isTransition then decide ((p.update bps).2 = .suspendVideo)
        else p.suspended := by
  rcases update_cases p bps with ⟨-, -, h⟩ | ⟨-, -, h⟩ | ⟨-, -, -, h⟩ | ⟨-, -, -, h⟩ |
    ⟨hs, -, -, -, h⟩ | ⟨-, -, -, -, h⟩ | ⟨hs, -, -, -, h⟩ | ⟨-, -, -, -, h⟩ <;> rw [h]
  · exact ⟨rfl, rfl⟩
  · exact ⟨rfl, rfl⟩
  · exact ⟨rfl, rfl⟩
  · exact ⟨rfl, rfl⟩
  · exact ⟨rfl, hs⟩
  · exact ⟨rfl, rfl⟩
  · exact ⟨rfl, hs⟩
  · rcases updateLayer_cases { p with suspendStreak := 0 } bps with ⟨l, s, h'⟩ | ⟨s, h'⟩ <;>
      rw [h'] <;> exact ⟨rfl, rfl⟩

/-- The kinds recorded with the tracks are those of their media lines. -/
def Typed (kindOf : ClientId → SfuMid → MediaKind) (heap : List ArcTrack) : Prop :=
  ∀ a ∈ heap, a.track.kind = kindOf a.track.origin a.track.mid

namespace Client

variable {kindOf : ClientId → SfuMid → MediaKind} {heap : List ArcTrack}

/-- The filter knows the kind of a media line the client has a live subscription to, and
takes any other for video. -/
theorem isVideoTrack_eq (h : Typed kindOf heap) (c : Client) (origin : ClientId) (mid : SfuMid) :
    c.isVideoTrack heap origin mid =
      if c.tracksOut.any (matchesTrack heap origin mid) then decide (kindOf origin mid = .video)
      else true := by
  unfold isVideoTrack
  induction c.tracksOut with
  | nil => rfl
  | cons o rest ih =>
    rw [List.findSome?_cons, List.any_cons]
    cases hu : upgrade heap o.trackIn with
    | none => simpa [matchesTrack, hu] using ih
    | some t =>
      by_cases hm : t.origin = origin ∧ t.mid = mid
      · have hkind : t.kind = kindOf origin mid := by
          rw [← hm.1, ← hm.2]
          exact h _ (mem_of_upgrade hu)
        simp [matchesTrack, hu, hm, hkind]
      · simpa [matchesTrack, hu, hm] using ih

theorem writeOut_rtc_congr (c c' : Client) (ht : c'.tracksOut = c.tracksOut) (hr : c'.rtc = c.rtc)
    (origin : ClientId) (data : SfuMediaPayload) :
    (c'.writeOut heap origin data).rtc = (c.writeOut heap origin data).rtc := by
  cases c
  cases c'
  obtain rfl : _ = _ := ht
  obtain rfl : _ = _ := hr
  unfold writeOut
  dsimp only
  split
  · rfl
  · split_ifs
    all_goals
      dsimp only
      split
      · rfl
      · split_ifs <;> rfl

theorem handleMediaDataOut_rtc (c : Client) (heap : List ArcTrack) (origin : ClientId)
    (data : SfuMediaPayload) : (c.handleMediaDataOut heap origin data).1.rtc =
      if c.passesFilters heap origin data then (c.writeOut heap origin data).rtc else c.rtc := by
  unfold handleMediaDataOut passesFilters
  cases c.suspended && c.isVideoTrack heap origin data.mid with
  | true => rfl
  | false =>
    cases c.layerAccepts data with
    | false => rfl
    | true =>
      cases c.temporalAccepts data with
      | false => rfl
      | true => exact writeOut_rtc_congr c (c.countForwarded heap origin data).1 rfl rfl origin data

theorem writeOut_of_not_any {c : Client} {origin : ClientId} {data : SfuMediaPayload}
    (h : ¬ c.tracksOut.any (matchesTrack heap origin data.mid)) :
    c.writeOut heap origin data = c := by
  have hfind : c.tracksOut.find? (matchesTrack heap origin data.mid) = none := by
    rw [List.find?_eq_none]
    intro o ho hm
    exact h (List.any_eq_true.mpr ⟨o, ho, hm⟩)
  unfold writeOut
  rw [hfind]
  rfl

/-- Suspension does not change what is written of an audio track. It changes what is counted if
the client has no live subscription to the track and its other filters let the packet pass. -/
theorem handleMediaDataOut_audio (h : Typed kindOf heap) (c : Client) {origin : ClientId}
    {data : SfuMediaPayload} (haudio : kindOf origin data.mid = .audio) :
    let free := ((c.setSuspended false).handleMediaDataOut heap origin data).1
    (c.handleMediaDataOut heap origin data).1.rtc = free.rtc ∧
      ((c.handleMediaDataOut heap origin data).1.deliveredMedia = free.deliveredMedia ↔
        (c.suspended = true → ¬ c.tracksOut.any (matchesTrack heap origin data.mid) →
          (c.layerAccepts data && c.temporalAccepts data) = false)) := by
  intro free
  have hfree : (c.setSuspended false).passesFilters heap origin data =
      (c.layerAccepts data && c.temporalAccepts data) := by
    simp only [passesFilters, setSuspended, Bool.false_and, Bool.not_false, Bool.true_and]
    rfl
  have hwrite : ((c.setSuspended false).writeOut heap origin data).rtc =
      (c.writeOut heap origin data).rtc :=
    writeOut_rtc_congr c (c.setSuspended false) rfl rfl origin data
  have hrtc : free.rtc = if c.layerAccepts data && c.temporalAccepts data then
      (c.writeOut heap origin data).rtc else c.rtc := by
    rw [← hwrite, ← hfree]
    exact handleMediaDataOut_rtc ..
  have hcount : free.deliveredMedia = c.deliveredMedia +
      if c.layerAccepts data && c.temporalAccepts data then 1 else 0 := by
    rw [← hfree]
    exact handleMediaDataOut_deliveredMedia ..
  rw [handleMediaDataOut_rtc, handleMediaDataOut_deliveredMedia, hrtc, hcount]
  by_cases hany : c.tracksOut.any (matchesTrack heap origin data.mid) = true
  · have hpass : c.passesFilters heap origin data =
        (c.layerAccepts data && c.temporalAccepts data) := by
      simp [passesFilters, isVideoTrack_eq h, hany, haudio]
    rw [hpass]
    exact ⟨rfl, iff_of_true rfl fun _ hnone => absurd hany hnone⟩
  · have hpass : c.passesFilters heap origin data =
        (!c.suspended && (c.layerAccepts data && c.temporalAccepts data)) := by
      simp [passesFilters, isVideoTrack_eq h, hany, Bool.and_assoc]
    refine ⟨?_, ?_⟩
    · rw [writeOut_of_not_any hany, ite_self, ite_self]
    · rw [hpass]
      cases c.suspended <;> cases c.layerAccepts data && c.temporalAccepts data <;> simp [hany]

end Client

/-- The pacer and the forwarding filter of a client are in the stage that its last
transition set, and its tracks have the kinds of their media lines. -/
structure FollowsMode (kindOf : ClientId → SfuMid → MediaKind) (c : Client) (l : List Advance) :
    Prop where
  audioOnly : c.pacer.audioOnly = (lastTransition l).any (· ≠ .restoreVideo)
  suspended : c.pacer.suspended = (lastTransition l).any (· = .suspendVideo)
  filter : c.suspended = c.pacer.suspended
  typed : Typed kindOf c.arcs

theorem FollowsMode.advance {kindOf : ClientId → SfuMid → MediaKind} {c : Client}
    {l : List Advance} (h : FollowsMode kindOf c l) (now : Instant) (bps : ℕ)
    (signals : Option PerSubscriber) :
    FollowsMode kindOf (driveReading (c.ticked now signals) now bps signals).client
      (l ++ [⟨now, bps, (c.pacer.update bps).2, signals⟩]) := by
  obtain ⟨_, _, hclient⟩ := driveReading_client (c.ticked now signals) now bps signals
  simp only [Client.ticked_id, Client.ticked_pacer, Client.ticked_suspended] at hclient
  obtain ⟨haudio, hsusp⟩ := c.pacer.update_transition bps
  have htyped : Typed kindOf (c.ticked now signals).arcs := by
    rw [Client.ticked_arcs]
    exact h.typed
  rw [hclient]
  refine ⟨?_, ?_, ?_, htyped⟩
  · dsimp only
    rw [haudio, lastTransition_concat, h.audioOnly]
    split_ifs <;> rfl
  · dsimp only
    rw [hsusp, lastTransition_concat, h.suspended]
    split_ifs <;> rfl
  · dsimp only
    rw [h.filter]
    exact applyPacerAction_suspend c.pacer bps c.id

/-- What the documentation says of one delivery is what the filters make of it. -/
theorem FollowsMode.honoursMode_iff {kindOf : ClientId → SfuMid → MediaKind} {c : Client}
    {pre : List Obs} (h : FollowsMode kindOf c (advances c.id pre)) {heap : List ArcTrack}
    (hheap : Typed kindOf heap) (origin : ClientId) (data : SfuMediaPayload) :
    (Obs.delivery c (c.handleMediaDataOut heap origin data).1 heap origin data).HonoursMode
        kindOf pre ↔
      (Obs.delivery c (c.handleMediaDataOut heap origin data).1 heap origin data).FiltersByKind
        kindOf pre := by
  have hsusp : c.suspended = decide (Suspended c.id pre) := by
    rw [h.filter, h.suspended, Bool.eq_iff_iff, decide_eq_true_iff]
    unfold Suspended
    cases lastTransition (advances c.id pre) <;> simp
  have hvideo : kindOf origin data.mid = .video → c.isVideoTrack heap origin data.mid = true := by
    intro hk
    rw [Client.isVideoTrack_eq hheap, hk]
    split_ifs <;> rfl
  refine and_congr (forall_congr' fun hk => forall_congr' fun _ => ?_) (forall_congr' fun hk => ?_)
  · rw [Client.handleMediaDataOut_deliveredMedia, Client.passesFilters, hvideo hk, hsusp]
    by_cases hs : Suspended c.id pre
    · simp [hs]
    · simp [hs]
  · obtain ⟨hrtc, hcount⟩ := c.handleMediaDataOut_audio hheap hk
    rw [hsusp, decide_eq_true_iff] at hcount
    exact (and_iff_left hrtc).trans hcount

theorem followsMode_invariant (F : Features) (kindOf : ClientId → SfuMid → MediaKind) :
    PacerInvariant F (fun id mid kind => kind = kindOf id mid) (fun _ => True) (FollowsMode kindOf)
      (Entrywise fun pre o => o.HonoursMode kindOf pre ↔ o.FiltersByKind kindOf pre) where
  entry := .of_true
  new id rtc metrics := ⟨rfl, rfl, rfl, fun a ha => by cases ha⟩
  frame l hs h := by
    refine ⟨?_, ?_, ?_, fun a ha => (hs.arcs a ha).elim (h.typed a) id⟩
    · rw [hs.pacer]
      exact h.audioOnly
    · rw [hs.pacer]
      exact h.suspended
    · rw [hs.suspended, hs.pacer]
      exact h.filter
  advance c now bps signals l _ h := h.advance now bps signals
  log_nil := entrywise_nil _
  log_advance c now bps signals h _ _ hG := by
    rw [entrywise_concat]
    exact ⟨hG, Iff.rfl⟩
  log_delivery c heap origin data h hheap hQ hG := by
    rw [entrywise_concat]
    refine ⟨hG, hQ.honoursMode_iff (fun a ha => ?_) origin data⟩
    obtain ⟨d, l, hd, had⟩ := hheap a ha
    exact hd.typed a had
  log_sample id arrival send h hG := by
    rw [entrywise_concat]
    exact ⟨hG, Iff.rfl⟩

namespace Process
variable {D : Type*} [ActiveSpeakerDetector D] (F : Features)

/-- After any calls, the pacer of a client is in the mode its last transition set. -/
theorem audioOnly_run (kindOf : ClientId → SfuMid → MediaKind) (now : Instant) (ops : List Op)
    (hops : ∀ op ∈ ops, op.Opens fun id mid kind => kind = kindOf id mid) :
    let p := run F (start now : Process D) ops
    ∀ c ∈ p.reg.clients, c.pacer.audioOnly = true ↔ AudioOnly c.id p.reg.history := by
  intro p c hc
  rw [((paced_run (followsMode_invariant F kindOf) now ops hops).clients c hc).audioOnly, AudioOnly]
  cases lastTransition (advances c.id p.reg.history) <;> simp

/-- Over any calls, audio-only mode does what is documented exactly when the subscriber's layer
and temporal filters reject every video packet that comes short of suspension, and every audio
packet that comes in suspension on a track that the subscriber has no live subscription to. -/
theorem honoursMode_run_iff (kindOf : ClientId → SfuMid → MediaKind) (now : Instant)
    (ops : List Op) (hops : ∀ op ∈ ops, op.Opens fun id mid kind => kind = kindOf id mid) :
    let h := (run F (start now : Process D) ops).reg.history
    Entrywise (Obs.HonoursMode kindOf) h ↔ Entrywise (Obs.FiltersByKind kindOf) h := by
  intro h
  have hlog := (paced_run (D := D) (followsMode_invariant F kindOf) now ops hops).log
  exact forall_congr' fun pre => forall_congr' fun o => forall_congr' fun post =>
    forall_congr' fun hsplit => hlog pre o post hsplit

/-- Client 0 opens a video track and sends one packet on it. -/
def oneVideoPacket : Feed := fun id =>
  if id = ⟨0⟩ then
    [(0, some (.event (.mediaAdded ⟨0⟩ .video))),
      (0, some (.event (.mediaData ⟨⟨0⟩, ⟨96⟩, none, [], 0, true, ⟨0, 90000⟩, ⟨0, true⟩, none, none⟩)))]
  else []

theorem oneVideoPacket_opens (now : Instant) :
    (Op.pollAll now oneVideoPacket).Opens fun _ _ kind => kind = .video := by
  intro id x hx mid kind h
  unfold oneVideoPacket at hx
  split_ifs at hx
  · rcases List.mem_cons.mp hx with rfl | hx
    · cases h
      rfl
    · obtain rfl := List.mem_singleton.mp hx
      cases h
  · cases hx

/-- A subscriber suspended by two readings of 5 kbit/s gets no video. -/
theorem honoursMode_run_iff_suspended :
    Entrywise (Obs.HonoursMode fun _ _ => .video) (run .full (start 0 : Process PeerDetector)
      [.clientNew .new .throwaway, .clientNew .new .throwaway, .insert ⟨0⟩ 0, .insert ⟨1⟩ 0,
        .recordNativeEstimate ⟨1⟩ (.num 5000), .updatePacerLayers ⟨0⟩ 0,
        .updatePacerLayers ⟨0⟩ 200000000, .pollAll 300000000 oneVideoPacket,
        .fanoutPending 300000000]).reg.history := by
  refine (honoursMode_run_iff (D := PeerDetector) .full (fun _ _ => .video) 0 _ ?_).mpr
    (by decide +kernel)
  simp only [List.mem_cons, List.not_mem_nil, or_false, forall_eq_or_imp, forall_eq]
  exact ⟨trivial, trivial, trivial, trivial, trivial, trivial, trivial, oneVideoPacket_opens _, trivial⟩

/-- A reading of 50 kbit/s puts a subscriber into audio-only mode, and the next video packet
is delivered all the same. -/
theorem honoursMode_fails :
    ¬ Entrywise (Obs.HonoursMode fun _ _ => .video) (run .full (start 0 : Process PeerDetector)
      [.clientNew .new .throwaway, .clientNew .new .throwaway, .insert ⟨0⟩ 0, .insert ⟨1⟩ 0,
        .recordNativeEstimate ⟨1⟩ (.num 50000), .updatePacerLayers ⟨0⟩ 0,
        .pollAll 0 oneVideoPacket, .fanoutPending 0]).reg.history := by
  decide +kernel

end Process
end SfuKit
