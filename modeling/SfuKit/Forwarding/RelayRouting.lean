import SfuKit.Tracks.CrossAdvertisement
import SfuKit.Tracks.Evolution

/-! # The routes to a relay

A track keeps the relay status that its publisher had when the track opened, and requests for
the track go by it. Layer hints go by the status the publisher has. The two part when the
origin is set between the first track and the insertion.
-/
namespace SfuKit

open Library Library.Announcement

/-- The publisher that an event is for, and whether it is to reach it through another edge. -/
def Propagated.route : Propagated → Option (ClientId × Bool)
  | .keyframeRequest _ _ source _ => some (source, false)
  | .upstreamKeyframeRequest source _ _ => some (source, true)
  | .publisherLayerHint id _ => some (id, false)
  | .publisherLayerHintForUpstream id _ => some (id, true)
  | _ => none

def Op.originSet : Op → Option ClientId
  | .setOrigin id _ => some id
  | _ => none

namespace Client

/-- Every track says of the client whether it is a relay. -/
def Tagged (c : Client) : Prop := ∀ a ∈ c.arcs, a.track.relaySource = c.isRelay

def Signed (c : Client) : Prop := ∀ a ∈ c.arcs, a.track.origin = c.id

namespace Evolves
variable {c c' : Client}

theorem tagged_iff (h : c.Evolves c') : c'.Tagged ↔ c.Tagged := by
  obtain ⟨opened, harcs, hopened⟩ := h.arcs
  rw [Tagged, harcs, List.forall_mem_append, h.isRelay]
  exact and_iff_left fun a ha => (hopened a ha).2

theorem signed (h : c.Evolves c') (hc : c.Signed) : c'.Signed := by
  obtain ⟨opened, harcs, hopened⟩ := h.arcs
  rw [Signed, harcs, List.forall_mem_append, h.id]
  exact ⟨hc, fun a ha => (hopened a ha).1⟩

end Evolves

theorem setOrigin_tagged_iff {c : Client} (h : c.Tagged) (origin : ClientOrigin) :
    (c.setOrigin origin).Tagged ↔ c.tracksIn = [] ∨ (c.setOrigin origin).isRelay = c.isRelay := by
  have harcs : (c.setOrigin origin).arcs = c.arcs := rfl
  constructor
  · intro h'
    cases ht : c.tracksIn with
    | nil => exact .inl rfl
    | cons t rest =>
      right
      have hmem : t.id ∈ c.arcs := by simp [arcs, ht]
      rw [← h' t.id hmem, h t.id hmem]
  · rintro (hnil | hsame) a ha
    · rw [harcs, arcs, hnil] at ha
      cases ha
    · rw [hsame]
      exact h a ha

end Client

namespace Registry
variable {D : Type*}

/-- Requests and hints reach relays through their edge, and nobody else that way. -/
structure RoutesRelays (r : Registry D) : Prop where
  tracks : ∀ c ∈ r.clients, ∀ t ∈ c.tracksIn, t.id.track.relaySource = c.isRelay
  requests : ∀ s ∈ r.clients, ∀ req, ∀ x ∈ (s.incomingKeyframeReq r.heap req).1.route,
    ∀ c ∈ r.clients, c.id = x.1 → x.2 = c.isRelay
  hints : ∀ e ∈ r.emitPublisherLayerHints.toPropagate.drop r.toPropagate.length, ∀ x ∈ e.route,
    ∀ c ∈ r.clients, c.id = x.1 → x.2 = c.isRelay

theorem tagged_iff (r : Registry D) : (∀ c ∈ r.clients, c.Tagged) ↔
    ∀ c ∈ r.clients, ∀ t ∈ c.tracksIn, t.id.track.relaySource = c.isRelay := by
  simp [Client.Tagged, Client.arcs]

theorem hint_route {r : Registry D} (hids : r.ids.Nodup) {e : Propagated}
    (he : e ∈ r.emitPublisherLayerHints.toPropagate.drop r.toPropagate.length)
    {x : ClientId × Bool} (hx : x ∈ e.route) {c : Client} (hc : c ∈ r.clients)
    (hid : c.id = x.1) : x.2 = c.isRelay := by
  simp only [emitPublisherLayerHints, List.drop_left, List.mem_map] at he
  obtain ⟨hint, -, rfl⟩ := he
  split_ifs at hx with hrelay
  · obtain rfl := Option.some.inj hx
    obtain ⟨d, hd, hdid, hdrelay⟩ : ∃ d ∈ r.clients, d.id = hint.1 ∧ d.isRelay = true := by
      simpa using hrelay
    obtain rfl : d = c := List.inj_on_of_nodup_map hids hd hc (hdid.trans hid.symm)
    exact hdrelay.symm
  · obtain rfl := Option.some.inj hx
    have hlocal : ∀ d ∈ r.clients, d.id = hint.1 → d.isRelay = false := by simpa using hrelay
    exact (hlocal c hc hid).symm

theorem request_route {r : Registry D} (hids : r.ids.Nodup)
    (hsigned : ∀ c ∈ r.clients, c.Signed) (htagged : ∀ c ∈ r.clients, c.Tagged) (s : Client)
    (req : SfuKeyframeRequest) {x : ClientId × Bool}
    (hx : x ∈ (s.incomingKeyframeReq r.heap req).1.route) {c : Client} (hc : c ∈ r.clients)
    (hid : c.id = x.1) : x.2 = c.isRelay := by
  rcases s.incomingKeyframeReq_cases r.heap req with h | ⟨o, -, t, ht, h⟩
  · rw [h] at hx
    cases hx
  have hroute : x = (t.origin, t.relaySource) := by
    rw [h] at hx
    split_ifs at hx with hrelay
    · rw [hrelay]
      exact (Option.some.inj hx).symm
    · rw [Bool.eq_false_iff.mpr hrelay]
      exact (Option.some.inj hx).symm
  subst hroute
  obtain ⟨d, hd, harc⟩ := List.mem_flatMap.mp (mem_of_upgrade ht)
  obtain rfl : d = c :=
    List.inj_on_of_nodup_map hids hd hc ((hsigned d hd _ harc).symm.trans hid.symm)
  exact htagged d hd _ harc

theorem routesRelays_iff {r : Registry D} (hids : r.ids.Nodup)
    (hsigned : ∀ c ∈ r.clients, c.Signed) : r.RoutesRelays ↔ ∀ c ∈ r.clients, c.Tagged := by
  refine ⟨fun h => r.tagged_iff.mpr h.tracks, fun h => ⟨r.tagged_iff.mp h, ?_, ?_⟩⟩
  · intro s _ req x hx c hc hid
    exact request_route hids hsigned h s req hx hc hid
  · intro e he x hx c hc hid
    exact hint_route hids he hx hc hid

end Registry

/-- The clients whose relay status a call changes although they have tracks. -/
def Process.retagged {D : Type*} (p : Process D) : Op → List ClientId
  | .setOrigin id origin => (p.clients.filter fun c => c.id = id ∧
      ¬ (c.tracksIn = [] ∨ (c.setOrigin origin).isRelay = c.isRelay)).map (·.id)
  | _ => []

/-- A process, with the clients whose origin has been set, and those of them whose relay
status that changed when they had tracks. -/
structure Watched (D : Type*) where
  process : Process D
  settled : List ClientId
  late : List ClientId

namespace Watched
variable {D : Type*}

/-- A client's origin is set once, and before the client is inserted. -/
def Contract (s : Watched D) (op : Op) : Prop :=
  ∀ id ∈ op.originSet, id ∉ s.settled ∧ id ∉ s.process.reg.ids

/-- No client is inserted whose relay status changed when it had tracks. -/
def InsertsTimely (s : Watched D) (op : Op) : Prop :=
  ∀ id ∈ op.inserted, (s.process.heldAt id).isSome → id ∉ s.late

instance (s : Watched D) (op : Op) : Decidable (s.Contract op) :=
  inferInstanceAs (Decidable (∀ id ∈ op.originSet, id ∉ s.settled ∧ id ∉ s.process.reg.ids))

instance (s : Watched D) (op : Op) : Decidable (s.InsertsTimely op) :=
  inferInstanceAs (Decidable (∀ id ∈ op.inserted, (s.process.heldAt id).isSome → id ∉ s.late))

/-- The late clients are those with a track that is wrong about them. -/
structure Tracked (s : Watched D) : Prop where
  room : s.process.room.WellFormed
  signed : ∀ c ∈ s.process.clients, c.Signed
  late_lt : ∀ id ∈ s.late, id.raw < s.process.idCounter
  late_settled : s.late ⊆ s.settled
  late_iff : ∀ c ∈ s.process.clients, c.id ∈ s.late ↔ ¬ c.Tagged

variable [ActiveSpeakerDetector D] (F : Features)

def start (now : Instant) : Watched D := ⟨.start now, [], []⟩

def step (s : Watched D) (op : Op) : Watched D where
  process := s.process.step F op
  settled := s.settled ++ op.originSet.toList
  late := s.late ++ s.process.retagged op

theorem run_process (s : Watched D) (ops : List Op) :
    (Run.run (step F) s ops).process = s.process.run F ops := by
  induction ops generalizing s with
  | nil => rfl
  | cons op ops ih => exact ih (s.step F op)

theorem tracked_start (now : Instant) : (start now : Watched D).Tracked where
  room := Room.wellFormed_empty
  signed := fun _ h => absurd h List.not_mem_nil
  late_lt := fun _ h => absurd h List.not_mem_nil
  late_settled := List.Subset.refl _
  late_iff := fun _ h => absurd h List.not_mem_nil

section
omit [ActiveSpeakerDetector D]
variable {s : Watched D} {op : Op}

theorem mem_retagged {id : ClientId} : id ∈ s.process.retagged op ↔
    ∃ c ∈ s.process.clients, c.id = id ∧ ∃ origin, op = .setOrigin id origin ∧
      ¬ (c.tracksIn = [] ∨ (c.setOrigin origin).isRelay = c.isRelay) := by
  cases op with
  | setOrigin id' origin =>
    simp only [Process.retagged, List.mem_map, List.mem_filter, decide_eq_true_eq]
    constructor
    · rintro ⟨c, ⟨hc, rfl, hkeep⟩, rfl⟩
      exact ⟨c, hc, rfl, origin, rfl, hkeep⟩
    · rintro ⟨c, hc, rfl, _, he, hkeep⟩
      injection he with hid horigin
      subst hid horigin
      exact ⟨c, ⟨hc, rfl, hkeep⟩, rfl⟩
  | _ => simp [Process.retagged]

end

namespace Tracked
variable {s : Watched D} (h : s.Tracked) {op : Op}
include h

theorem late_step_lt {id : ClientId} (hid : id ∈ (s.step F op).late) :
    id.raw < s.process.idCounter := by
  rcases List.mem_append.mp hid with hid | hid
  · exact h.late_lt id hid
  · obtain ⟨c, hc, rfl, -⟩ := mem_retagged.mp hid
    exact Process.lt_idCounter h.room hc

/-- Setting the origin of a client, for the first time, makes it late exactly if its tracks
are then wrong about it. -/
theorem late_setOrigin {c : Client} (hc : c ∈ s.process.clients) {origin : ClientOrigin}
    (hop : s.Contract (.setOrigin c.id origin)) :
    c.id ∈ (s.step F (.setOrigin c.id origin)).late ↔ ¬ (c.setOrigin origin).Tagged := by
  have hfirst : c.id ∉ s.late := fun hid => (hop c.id rfl).1 (h.late_settled hid)
  have htagged : c.Tagged := by
    by_contra hnot
    exact hfirst ((h.late_iff c hc).mpr hnot)
  rw [Client.setOrigin_tagged_iff htagged]
  constructor
  · intro hid
    obtain ⟨d, hd, hdid, _, he, hkeep⟩ :=
      mem_retagged.mp ((List.mem_append.mp hid).resolve_left hfirst)
    injection he with _ horigin
    rw [← horigin] at hkeep
    rwa [Process.eq_of_id h.room hd hc hdid] at hkeep
  · intro hkeep
    exact List.mem_append_right _ (mem_retagged.mpr ⟨c, hc, rfl, origin, rfl, hkeep⟩)

theorem late_iff_step (hop : s.Contract op) {c' : Client}
    (hc' : c' ∈ (s.process.step F op).clients) :
    c'.id ∈ (s.step F op).late ↔ ¬ c'.Tagged := by
  rcases s.process.mem_clients_step F hc' with
    ⟨c, hc, he, hne⟩ | ⟨c, hc, origin, rfl, rfl⟩ | ⟨rtc, metrics, -, rfl⟩
  · have hnot : c.id ∉ s.process.retagged op := by
      intro hid
      obtain ⟨-, -, -, origin, hset, -⟩ := mem_retagged.mp hid
      exact hne origin hset
    rw [he.id, he.tagged_iff, ← h.late_iff c hc]
    simp [Watched.step, hnot]
  · exact late_setOrigin F h hc hop
  · -- A new client has no tracks, and its id is not among those drawn before.
    have hnew : (Client.new ⟨s.process.idCounter⟩ rtc metrics).1.Tagged := by
      intro a ha
      cases ha
    exact iff_of_false (fun hid => (late_step_lt F h hid).ne rfl) (not_not.mpr hnew)

theorem step (hop : s.Contract op) : (s.step F op).Tracked where
  room := Process.wellFormed_step F s.process op h.room
  signed c' hc' := by
    rcases s.process.mem_clients_step F hc' with
      ⟨c, hc, he, -⟩ | ⟨c, hc, origin, -, rfl⟩ | ⟨rtc, metrics, -, rfl⟩
    · exact he.signed (h.signed c hc)
    · exact h.signed c hc
    · intro a ha
      cases ha
  late_lt id hid := (late_step_lt F h hid).trans_le (s.process.idCounter_le_step F op)
  late_settled id hid := by
    rcases List.mem_append.mp hid with hid | hid
    · exact List.mem_append_left _ (h.late_settled hid)
    · obtain ⟨c, -, -, origin, rfl, -⟩ := mem_retagged.mp hid
      apply List.mem_append_right
      simp [Op.originSet]
  late_iff c' hc' := late_iff_step F h hop hc'

end Tracked

/-- A call that keeps the contract keeps the tracks of the room right exactly if it is timely. -/
theorem tagged_step_iff {s : Watched D} (h : s.Tracked) {op : Op} (hop : s.Contract op)
    (htagged : ∀ c ∈ s.process.reg.clients, c.Tagged) :
    (∀ c ∈ (s.step F op).process.reg.clients, c.Tagged) ↔ s.InsertsTimely op := by
  rcases s.process.step_clients F op with ⟨id, origin, rfl⟩ | ⟨rtc, metrics, rfl, hr, -⟩ |
    ⟨id, now, j, c, c', rfl, hx, he, hr, -⟩ | ⟨hnone, hr, -⟩
  · have hsame : ((s.process.step F (.setOrigin id origin)).reg).clients =
        s.process.reg.clients := by
      refine (List.map_congr_left fun c hc => ?_).trans (List.map_id _)
      rw [if_neg]
      · rfl
      · intro hid
        exact (hop id rfl).2 (hid ▸ List.mem_map_of_mem hc)
    simp only [Watched.step, hsame]
    exact iff_of_true htagged fun _ h => by cases h
  · simp only [Watched.step, hr]
    exact iff_of_true htagged fun _ h => by cases h
  · have hc : c ∈ s.process.clients :=
      List.mem_append_right _ (List.mem_of_getElem? (Process.heldAt_eq_some hx).1)
    simp only [Watched.step, hr, List.forall_mem_append, List.forall_mem_singleton]
    rw [and_iff_right htagged, he.tagged_iff, ← not_iff_not, ← h.late_iff c hc,
      (Process.heldAt_eq_some hx).2]
    simp [InsertsTimely, Op.inserted, hx]
  · refine iff_of_true (fun c' hc' => ?_) fun id hid hheld => ?_
    · obtain ⟨c, hc, he⟩ := hr c' hc'
      exact he.tagged_iff.mpr (htagged c hc)
    · rw [hnone id hid] at hheld
      cases hheld

/-- In a run that keeps the contract, requests and hints are routed by one and the same relay
status in every state reached exactly if no client is inserted whose status changed when it
had tracks. -/
theorem routesRelays_run_iff (now : Instant) (ops : List Op)
    (h : Run.Along (step F) Contract (start now : Watched D) ops) :
    (∀ pre, pre <+: ops → (Process.run F (.start now : Process D) pre).reg.RoutesRelays) ↔
      Run.Along (step F) InsertsTimely (start now : Watched D) ops := by
  have htracked : ∀ pre, pre <+: ops →
      (Run.run (step F) (start now : Watched D) pre).Tracked := by
    rintro pre ⟨rest, rfl⟩
    have hstep : ∀ (s : Watched D) (op : Op), s.Tracked → s.Contract op → (s.step F op).Tracked :=
      fun s op hs hop => hs.step F hop
    exact Run.invariant hstep (tracked_start now) ((Run.along_append _ _ _ _).mp h).1
  have hstep : ∀ (s : Watched D) (op : Op),
      (s.Tracked ∧ ∀ c ∈ s.process.reg.clients, c.Tagged) → s.Contract op →
      (((s.step F op).Tracked ∧ ∀ c ∈ (s.step F op).process.reg.clients, c.Tagged) ↔
        s.InsertsTimely op) := by
    intro s op hs hop
    rw [and_iff_right (hs.1.step F hop)]
    exact tagged_step_iff F hs.1 hop hs.2
  have hstart : (start now : Watched D).Tracked ∧
      ∀ c ∈ (start now : Watched D).process.reg.clients, c.Tagged :=
    ⟨tracked_start now, fun _ h => absurd h List.not_mem_nil⟩
  rw [← Run.forall_prefix_iff_of hstep hstart h]
  refine forall_congr' fun pre => imp_congr_right fun hpre => ?_
  have ht := htracked pre hpre
  have hp : (Run.run (step F) (start now : Watched D) pre).process =
      Process.run F (.start now : Process D) pre := run_process F (start now) pre
  have hsigned : ∀ c ∈ (Process.run F (.start now : Process D) pre).reg.clients, c.Signed := by
    intro c hc
    refine ht.signed c (List.mem_append_left _ ?_)
    rw [hp]
    exact hc
  rw [and_iff_right ht, hp]
  exact Registry.routesRelays_iff (Process.ids_nodup (hp ▸ ht.room)) hsigned

/-- A relay opens a track while it is held, has its origin set and is inserted. -/
theorem routesRelays_fails :
    let ops : List Op := [.clientNew .new .throwaway,
      .heldPoll ⟨0⟩ 0 (some (.event (.mediaAdded ⟨0⟩ .video))),
      .setOrigin ⟨0⟩ (.relayFromSfu "edge"), .insert ⟨0⟩ 0]
    Run.Along (step .full) Contract (start 0 : Watched PeerDetector) ops ∧
      ¬ (Process.run .full (.start 0 : Process PeerDetector) ops).reg.RoutesRelays := by
  exact ⟨by decide, fun h => absurd h.tracks (by decide)⟩

/-- A relay whose origin is set first opens its track while it is held. -/
theorem routesRelays_run_iff_early : (Process.run .full (.start 0 : Process PeerDetector)
    [.clientNew .new .throwaway, .setOrigin ⟨0⟩ (.relayFromSfu "edge"),
      .heldPoll ⟨0⟩ 0 (some (.event (.mediaAdded ⟨0⟩ .video))),
      .insert ⟨0⟩ 0]).reg.RoutesRelays :=
  (routesRelays_run_iff .full 0 _ (by decide)).mpr (by decide) _ List.prefix_rfl

end Watched
end SfuKit
