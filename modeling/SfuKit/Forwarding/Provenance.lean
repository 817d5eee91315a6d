import SfuKit.Forwarding.Ledger
import SfuKit.Model.PeerDetector
import SfuKit.Server.Media

/-! # What is written has been received

The packets handed to a client are among those that str0m has handed in for the others, and the
calls on its connection carry the media of packets handed to it, untouched. Neither way is the
order changed or a packet doubled.
-/
namespace SfuKit

open Library Ledger

/-- What a subscriber gets to see of a packet. -/
structure Media where
  networkTime : Instant
  time : MediaTime
  data : List UInt8
  keyEpoch : Option ℕ

def SfuMediaPayload.media (d : SfuMediaPayload) : Media := ⟨d.networkTime, d.time, d.data, d.keyEpoch⟩

def WriteCall.media (x : WriteCall) : Media := ⟨x.networkTime, x.time, x.data, x.keyEpoch⟩

/-- The packets of others that str0m hands in during a move, each under its publisher. -/
def Move.heard {D : Type*} (id : ClientId) (p : Process D) : Move → List (ClientId × SfuMediaPayload)
  | .call (.pollAll _ feed) =>
    (NetPoll.media (NetPoll.trace feed.net p.reg.clients)).filter fun x => x.1 ≠ id
  | _ => []

/-- The moves that route packets or make entries in the history. -/
def Move.isRouting : Move → Bool
  | .call (.pollAll ..) | .call (.fanoutPending _) | .call (.updatePacerLayers ..) => true
  | _ => false

theorem Client.writeCall_media {c : Client} {heap : List ArcTrack} {origin : ClientId}
    {data : SfuMediaPayload} {x : WriteCall} (h : c.writeCall heap origin data = some x) :
    x.media = data.media := by
  unfold writeCall at h
  split_ifs at h
  obtain ⟨mid, -, hmid⟩ := Option.bind_eq_some_iff.mp h
  obtain ⟨w, -, hw⟩ := Option.bind_eq_some_iff.mp hmid
  split_ifs at hw
  cases hw
  rfl

/-- The deliveries to a client write the media of some of the packets handed to it, in order. -/
theorem writes_sublist_handedTo (id : ClientId) (h : List Obs) :
    ((writes id h).map WriteCall.media).Sublist
      ((handedTo id h).map fun x => x.2.media) := by
  induction h with
  | nil => exact List.Sublist.refl _
  | cons o h ih =>
    have hone : ((writes id [o]).map WriteCall.media).Sublist
        ((handedTo id [o]).map fun x => x.2.media) := by
      cases o with
      | delivery before after heap origin data =>
        by_cases hid : before.id = id
        · cases hw : before.writeCall heap origin data with
          | none => simp [writes, hid, hw]
          | some x =>
            have hmedia := Client.writeCall_media hw
            simp [writes, handedTo, HandOff.sentTo, handedOut, Obs.handOff, hid, hw, hmedia]
        · simp [writes, hid]
      | _ => simp [writes]
    have hwrites : writes id (o :: h) = writes id [o] ++ writes id h := by
      rw [writes, writes, writes, ← List.flatMap_append, List.singleton_append]
    have hhanded : handedTo id (o :: h) = handedTo id [o] ++ handedTo id h := by
      rw [← List.singleton_append, handedTo, handedOut_append, HandOff.sentTo, List.filter_append,
        List.map_append]
      rfl
    rw [hwrites, hhanded, List.map_append, List.map_append]
    exact hone.append ih

namespace Process
variable {D : Type*} [ActiveSpeakerDetector D] (F : Features)

/-- The packets of others that a client has been handed, and those that wait in the queue. -/
def offered (id : ClientId) (p : Process D) : List (ClientId × SfuMediaPayload) :=
  handedTo id p.reg.history ++ (packets p.reg.toPropagate).filter fun x => x.1 ≠ id

omit [ActiveSpeakerDetector D] in
theorem offered_congr {id : ClientId} {p q : Process D}
    (hhistory : handedOut q.reg.history = handedOut p.reg.history)
    (hpackets : packets q.reg.toPropagate = packets p.reg.toPropagate) :
    q.offered id = p.offered id := by
  rw [offered, offered, handedTo, handedTo, hhistory, hpackets]

theorem pollAll_packets (p : Process D) (now : Instant) (feed : Feed) :
    packets (p.pollAll F now feed).reg.toPropagate = packets p.reg.toPropagate ++
      NetPoll.media (NetPoll.trace feed.net p.reg.clients) := by
  have hround := NetPoll.round_packets F now feed.net
    ⟨⟨p.reg, p.nextAlloc, now + fromMillis 100, none⟩, fun _ => []⟩
  have hpoll := NetPoll.round_poll F now feed.net
    ⟨⟨p.reg, p.nextAlloc, now + fromMillis 100, none⟩, fun _ => []⟩
  rw [hpoll, Feed.net_feed] at hround
  simp only [pollAll, Registry.pollAll]
  split <;> exact hround

omit [ActiveSpeakerDetector D] in
theorem fanoutPending_offered {p : Process D} (hr : p.room.WellFormed) (id : ClientId)
    (now : Instant) :
    (offered id { p with reg := p.reg.fanoutPending F now }).Sublist (p.offered id) := by
  have hqueue : (p.reg.fanoutPending F now).toPropagate = [] :=
    Registry.fanoutPending_toPropagate F now p.reg
  have hhanded : handedTo id (p.reg.fanoutPending F now).history = handedTo id p.reg.history ++
      HandOff.sentTo id (handOffs p.reg.ids p.reg.toPropagate) := by
    rw [handedTo, Registry.handedOut_fanoutPending, HandOff.sentTo, List.filter_append,
      List.map_append]
    rfl
  have hcount : p.reg.ids.count id ≤ 1 := List.nodup_iff_count_le_one.mp (ids_nodup hr) id
  have hnone : packets [] = [] := rfl
  simp only [offered, hqueue, hhanded, sentTo_handOffs]
  rw [hnone, List.filter_nil, List.append_nil]
  apply List.Sublist.append_left
  induction packets p.reg.toPropagate with
  | nil => exact List.Sublist.refl _
  | cons x l ih =>
    rw [List.flatMap_cons]
    by_cases hx : x.1 = id
    · simpa [hx] using ih
    · rw [if_neg hx, List.filter_cons_of_pos (by simpa using hx), ← List.singleton_append]
      apply List.Sublist.append _ ih
      rw [← List.replicate_one]
      exact (List.replicate_sublist_replicate x).mpr hcount

/-- Every other move leaves the history alone, and the packets in the queue. -/
theorem move_idle (p : Process D) {x : Move} (hx : x.isRouting = false) :
    (p.move F x).reg.history = p.reg.history ∧
      packets (p.move F x).reg.toPropagate = packets p.reg.toPropagate := by
  have hnotice {op : Op} (hquiet : op.isNotice = true) :
      (p.step F op).reg.history = p.reg.history ∧
        packets (p.step F op).reg.toPropagate = packets p.reg.toPropagate := by
    obtain ⟨_, _, notices, hnotices, hstep⟩ := p.step_notice F hquiet
    rw [hstep]
    exact ⟨rfl, by rw [packets_append, packets_of_isNotice hnotices, List.append_nil]⟩
  cases x with
  | setMaxTemporalLayer | setMaxVfmTemporalLayer | negotiated => exact ⟨rfl, rfl⟩
  | call op =>
    cases op with
    | clientNew rtc handle =>
      obtain ⟨_, hreg⟩ := metricsCalls_reg { p with
        held := p.held ++ [(Client.new ⟨p.idCounter⟩ rtc handle).1]
        idCounter := p.idCounter + 1 } handle (Client.new ⟨p.idCounter⟩ rtc handle).2
      simp only [move, step, clientNew, hreg, true_and]
    | heldPoll id clock result =>
      simp only [move, step, heldPoll]
      split
      · exact ⟨rfl, rfl⟩
      · obtain ⟨_, hreg⟩ := metricsCalls_reg ..
        rw [hreg]
        exact ⟨rfl, rfl⟩
    | dropHeld id =>
      simp only [move, step, dropHeld]
      split <;> exact ⟨rfl, rfl⟩
    | insert id now =>
      simp only [move, step, insert]
      split <;> exact ⟨rfl, rfl⟩
    | pollAll | fanoutPending | updatePacerLayers => cases hx
    | emitPublisherLayerHints | clientBudgetHint | recordAudioLevel | tickActiveSpeaker
      | tickSpeakerScores => exact hnotice rfl
    | setOrigin | setDesiredLayer | connection | reapDead => exact ⟨rfl, rfl⟩
    | onTwccFeedback | recordSendTime | recordNativeEstimate | enableGoogcc | googccOnReceive =>
      simp only [move, step]
      split_ifs <;> exact ⟨rfl, rfl⟩

theorem move_offered {p : Process D} (hr : p.room.WellFormed) (id : ClientId) (x : Move) :
    ((p.move F x).offered id).Sublist (p.offered id ++ x.heard id p) := by
  have hsame : ∀ q : Process D, handedOut q.reg.history = handedOut p.reg.history →
      packets q.reg.toPropagate = packets p.reg.toPropagate →
      (q.offered id).Sublist (p.offered id ++ []) := by
    intro q hhistory hpackets
    rw [List.append_nil, offered_congr hhistory hpackets]
  have hidle (hx : x.isRouting = false) :
      ((p.move F x).offered id).Sublist (p.offered id ++ []) := by
    obtain ⟨hhistory, hpackets⟩ := move_idle F p hx
    exact hsame _ (congrArg handedOut hhistory) hpackets
  cases x with
  | setMaxTemporalLayer | setMaxVfmTemporalLayer | negotiated => exact hidle rfl
  | call op =>
    cases op with
    | pollAll now feed =>
      have hhanded : handedOut (p.pollAll F now feed).reg.history = handedOut p.reg.history :=
        Registry.handedOut_pollAll F now feed p.nextAlloc p.reg
      simp only [move, step, offered, Move.heard]
      rw [pollAll_packets, List.filter_append, handedTo, hhanded, ← List.append_assoc]
      exact List.Sublist.refl _
    | fanoutPending now =>
      exact (fanoutPending_offered F hr id now).trans (List.sublist_append_left _ _)
    | updatePacerLayers origin now =>
      simp only [move, step]
      split_ifs
      · apply hsame _ (Registry.handedOut_updatePacerLayers now p.reg origin)
        obtain ⟨evs, hevs, -, hmodes⟩ := Registry.updatePacerLayers_queue now p.reg origin
        rw [hevs, packets_append, packets_of_isMode hmodes, List.append_nil]
      · exact hsame _ rfl rfl
    | _ => exact hidle rfl

/-- Through every run the packets handed to a client are among those that str0m has handed in
for the others, in their order, each once. -/
theorem handedTo_run (now : Instant) (moves : List Move) (id : ClientId) :
    (handedTo id (Run.run (move F) (start now : Process D) moves).reg.history).Sublist
      (Run.emissions (move F) (fun p x => x.heard id p) (start now : Process D) moves) := by
  have hstart : (start now : Process D).room.WellFormed := Announcement.Room.wellFormed_empty
  have hsub := Run.sublist_run (offered id) (fun p x h => move_wellFormed F p x h)
    (fun p x h => move_offered F h id x) hstart moves
  exact (List.sublist_append_left _ _).trans hsub

omit [ActiveSpeakerDetector D] in
theorem heard_fromStr0m {id : ClientId} {p : Process D} {x : Move}
    {y : ClientId × SfuMediaPayload} (hy : y ∈ x.heard id p) : ∃ d, y.2 = .fromStr0m d := by
  unfold Move.heard at hy
  split at hy
  · obtain ⟨z, -, hz⟩ := List.mem_flatMap.mp (List.mem_of_mem_filter hy)
    split at hz
    · next d _ =>
      rw [List.mem_singleton.mp hz]
      exact ⟨d, rfl⟩
    · cases hz
  · cases hy

/-- Whatever caps the application sets, in no run does a delivery meet one: every packet passes
the filter for temporal layers. -/
theorem temporalAccepts_run (now : Instant) (moves : List Move) :
    let p : Process D := Run.run (move F) (start now) moves
    ∀ before after heap origin data, .delivery before after heap origin data ∈ p.reg.history →
      before.temporalAccepts data = true := by
  intro p before after heap origin data ho
  have hhanded : (origin, data) ∈ handedTo before.id p.reg.history := by
    rw [handedTo, HandOff.sentTo, List.mem_map]
    refine ⟨(before.id, origin, data), List.mem_filter.mpr ⟨?_, by simp⟩, rfl⟩
    exact List.mem_filterMap.mpr ⟨_, ho, rfl⟩
  have hemitted := (handedTo_run F now moves before.id).subset hhanded
  obtain ⟨d, rfl⟩ : ∃ d, data = .fromStr0m d :=
    Run.forall_emissions (fun _ _ _ h => heard_fromStr0m h) _ hemitted
  rfl

/-- What a client writes in a run, whatever entries negotiation opens on the way, is the media
of packets that str0m has handed in for other clients: untouched, in the order of their arrival
and each once. -/
theorem written_run (now : Instant) (moves : List Move) :
    let p : Process D := Run.run (move F) (start now) moves
    ∀ c ∈ p.clients, ∃ opened ∈ (moves.flatMap Move.opens)[c.id.raw]?,
      c.rtc.written = (writes c.id p.reg.history).reverse ++ opened.2 ∧
        ((writes c.id p.reg.history).map WriteCall.media).Sublist
          ((Run.emissions (move F) (fun p x => x.heard c.id p) (start now : Process D) moves).map
            fun x => x.2.media) := by
  intro p c hc
  obtain ⟨opened, hopened, haccount⟩ := accounts_run F now moves c hc
  rw [post_book] at haccount
  refine ⟨opened, hopened, congrArg Prod.snd haccount, ?_⟩
  exact (writes_sublist_handedTo c.id p.reg.history).trans
    ((handedTo_run F now moves c.id).map _)

/-- Client 0 opens an audio line and sends a packet, and the entry of client 1 is open by then. -/
def forwardedOnce : List Move :=
  [.call (.clientNew .new .throwaway), .call (.clientNew .new .throwaway),
    .call (.insert ⟨0⟩ 0), .call (.insert ⟨1⟩ 0),
    .call (.pollAll 0 fun id =>
      if id = ⟨0⟩ then [(0, some (.event (.mediaAdded ⟨5⟩ .audio)))] else []),
    .call (.fanoutPending 0), .negotiated ⟨1⟩ 0 ⟨8⟩,
    .call (.connection ⟨1⟩ true [⟨⟨8⟩, [(⟨0, false⟩, ⟨96⟩)], true⟩]),
    .call (.pollAll 1 fun id =>
      if id = ⟨0⟩ then
        [(1, some (.event (.mediaData
          ⟨⟨5⟩, ⟨111⟩, none, [1, 2, 3], 7, true, ⟨960, 48000⟩, ⟨0, false⟩, none, some 9⟩)))]
      else []),
    .call (.fanoutPending 1)]

example : (Run.run (move .full) (start 0 : Process PeerDetector) forwardedOnce).clients.map
    (·.rtc.written) = [[], [⟨⟨8⟩, ⟨96⟩, 7, ⟨960, 48000⟩, [1, 2, 3], some 9⟩]] := by
  decide

end Process
end SfuKit
