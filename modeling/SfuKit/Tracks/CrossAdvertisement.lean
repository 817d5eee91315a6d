import SfuKit.Library.Announcement.Delivery
import SfuKit.Model.PeerDetector
import SfuKit.Tracks.Refinement

/-! # Cross-advertisement of tracks

Existing tracks are announced to a newcomer when it is inserted, new tracks go
through the queue. The two paths overlap when a peer is inserted between
`poll_all` and `fanout_pending`, and neither of them covers the tracks that a
newcomer brings along.
-/
namespace SfuKit

open Library Library.Announcement

namespace Process
variable {D : Type*}

/-- How many entries of `s.tracks_out` refer to the track at `w`. -/
def subscriptions (s : Client) (w : WeakTrack) : ℕ := s.tracksOut.countP fun o => o.trackIn = w

/-- No client is subscribed twice to a track of another client. -/
def NoDuplicates (p : Process D) : Prop :=
  ∀ s ∈ p.reg.clients, ∀ q ∈ p.reg.clients, s.id ≠ q.id →
    ∀ t ∈ q.tracksIn, subscriptions s t.id.downgrade ≤ 1

/-- Every client is subscribed to every track of every other client. -/
def FullySubscribed (p : Process D) : Prop :=
  ∀ s ∈ p.reg.clients, ∀ q ∈ p.reg.clients, s.id ≠ q.id →
    ∀ t ∈ q.tracksIn, 1 ≤ subscriptions s t.id.downgrade

def NoTrackOpen (p : Process D) : Prop := announcements p.reg.toPropagate = []

/-- A client is inserted only when no `TrackOpen` for a track of a connected client is
still queued. -/
def InsertsSettled (p : Process D) (op : Op) : Prop :=
  op.inserted.isSome → ∀ q ∈ p.reg.clients, ∀ t ∈ q.tracksIn,
    Propagated.trackOpen q.id t.id.downgrade ∉ p.reg.toPropagate

/-- A client is inserted only before it has opened a track, or into an empty room. -/
def InsertsTrackless (p : Process D) (op : Op) : Prop :=
  ∀ id ∈ op.inserted, ∀ x ∈ p.heldAt id, x.2.tracksIn = [] ∨ p.reg.clients = []

instance (p : Process D) : Decidable p.NoDuplicates :=
  inferInstanceAs (Decidable (∀ s ∈ p.reg.clients, ∀ q ∈ p.reg.clients, s.id ≠ q.id →
    ∀ t ∈ q.tracksIn, subscriptions s t.id.downgrade ≤ 1))

instance (p : Process D) : Decidable p.FullySubscribed :=
  inferInstanceAs (Decidable (∀ s ∈ p.reg.clients, ∀ q ∈ p.reg.clients, s.id ≠ q.id →
    ∀ t ∈ q.tracksIn, 1 ≤ subscriptions s t.id.downgrade))

instance (p : Process D) : Decidable p.NoTrackOpen :=
  inferInstanceAs (Decidable (announcements p.reg.toPropagate = []))

instance (p : Process D) (op : Op) : Decidable (p.InsertsSettled op) :=
  inferInstanceAs (Decidable (op.inserted.isSome → ∀ q ∈ p.reg.clients, ∀ t ∈ q.tracksIn,
    Propagated.trackOpen q.id t.id.downgrade ∉ p.reg.toPropagate))

instance (p : Process D) (op : Op) : Decidable (p.InsertsTrackless op) :=
  have : Decidable (p.reg.clients = []) := decidable_of_iff _ List.isEmpty_iff
  inferInstanceAs (Decidable (∀ id ∈ op.inserted, ∀ x ∈ p.heldAt id,
    x.2.tracksIn = [] ∨ p.reg.clients = []))

section Room
variable (p : Process D)

theorem count_known (c : Client) (w : WeakTrack) : c.member.known.count w = subscriptions c w := by
  simp only [Client.member, subscriptions, List.count_eq_countP, List.countP_map]
  rfl

theorem mem_owned (c : Client) {t : TrackInEntry} (ht : t ∈ c.tracksIn) :
    t.id.downgrade ∈ c.member.owned := by
  simp only [Client.member, Client.arcs, List.map_map]
  exact List.mem_map_of_mem ht

theorem name_ne_of_id_ne {s q : Client} (h : s.id ≠ q.id) : s.member.name ≠ q.member.name :=
  fun hn => h (ClientId.ext hn)

theorem mem_members {c : Client} (hc : c ∈ p.reg.clients) : c.member ∈ p.room.members :=
  List.mem_map_of_mem hc

/-- In a room where nobody hears twice nobody is subscribed twice. -/
theorem noDuplicates_of_room (h : p.room.AtMostOnce) : p.NoDuplicates := by
  intro s hs q hq hne t ht
  have hle := h s.member (p.mem_members hs) q.member (p.mem_members hq) (name_ne_of_id_ne hne)
    t.id.downgrade (mem_owned q ht)
  rw [Room.copies, count_known] at hle
  omega

/-- With no announcement under way, what everybody hears everybody is subscribed to. -/
theorem fullySubscribed_of_room (h : p.room.AtLeastOnce) (hq : p.NoTrackOpen) :
    p.FullySubscribed := by
  intro s hs q hqm hne t ht
  have hle := h s.member (p.mem_members hs) q.member (p.mem_members hqm) (name_ne_of_id_ne hne)
    t.id.downgrade (mem_owned q ht)
  have hnone : p.room.pending = [] := hq
  rw [Room.copies, count_known, hnone] at hle
  simpa using hle

theorem settled_of_insertsSettled (hr : p.room.WellFormed) {id : ClientId} {now : Instant}
    (h : p.InsertsSettled (.insert id now)) : p.room.Settled := by
  intro m hm w hw e he hew
  have hown := hr.pending_owner e he m hm (hew ▸ hw)
  obtain ⟨c, hc, rfl⟩ := List.mem_map.mp hm
  obtain ⟨a, ha, rfl⟩ := List.mem_map.mp hw
  obtain ⟨t, ht, rfl⟩ := List.mem_map.mp ha
  obtain ⟨ev, hev, hann⟩ := List.mem_filterMap.mp he
  cases ev with
  | trackOpen origin track =>
    obtain rfl := Option.some.inj hann
    refine h rfl c hc t ht ?_
    have hid : c.id = origin := ClientId.ext hown
    have hw' : t.id.downgrade = track := hew.symm
    rw [hid, hw']
    exact hev
  | _ => cases hann

end Room

theorem ids_nodup {p : Process D} (hr : p.room.WellFormed) : p.reg.ids.Nodup := by
  have hnames := hr.names_nodup
  have hraw : (p.room.members.map (·.name)) = p.reg.ids.map (·.raw) := by
    simp [room, Registry.ids, Client.member]
  rw [hraw] at hnames
  exact List.Nodup.of_map _ hnames

theorem clients_nodup {p : Process D} (hr : p.room.WellFormed) :
    (p.clients.map (·.id)).Nodup := by
  have hraw : p.room.holdings.map (·.1) = (p.clients.map (·.id)).map (·.raw) := by
    simp only [Room.holdings, Room.everyone, room, clients, List.map_append, List.map_map]
    rfl
  have hnames := hr.roster.names
  rw [hraw] at hnames
  exact List.Nodup.of_map _ hnames

theorem eq_of_id {p : Process D} (hr : p.room.WellFormed) {c d : Client} (hc : c ∈ p.clients)
    (hd : d ∈ p.clients) (h : c.id = d.id) : c = d :=
  List.inj_on_of_nodup_map (clients_nodup hr) hc hd h

theorem lt_idCounter {p : Process D} (hr : p.room.WellFormed) {c : Client} (hc : c ∈ p.clients) :
    c.id.raw < p.idCounter := by
  have heveryone : p.room.everyone = p.clients.map Client.member := List.map_append.symm
  have hmem : (c.id.raw, c.member.owned) ∈ p.room.holdings := by
    rw [Room.holdings, heveryone, List.map_map]
    exact List.mem_map_of_mem hc
  exact hr.roster.name_lt _ hmem

theorem addrs_nodup {p : Process D} (hr : p.room.WellFormed) : (p.reg.heap.map (·.addr)).Nodup := by
  have htokens : p.room.tokens = p.reg.heap.map (·.addr) := by
    simp [Room.tokens, room, Registry.heap, Client.member, List.flatMap_map, List.map_flatMap]
  rw [← htokens]
  exact hr.tokens_nodup

theorem held_not_mem_ids {p : Process D} (hr : p.room.WellFormed) {c : Client} (hc : c ∈ p.held) :
    c.id ∉ p.reg.ids := by
  intro hin
  obtain ⟨d, hd, hid⟩ := List.mem_map.mp hin
  exact hr.name_ne (p.mem_members hd) (List.mem_map_of_mem hc) (congrArg ClientId.raw hid)

theorem fresh_not_mem_ids {p : Process D} (hr : p.room.WellFormed) {n : ℕ}
    (hn : p.idCounter ≤ n) : (⟨n⟩ : ClientId) ∉ p.reg.ids := by
  intro hin
  obtain ⟨d, hd, hid⟩ := List.mem_map.mp hin
  have hlt : d.id.raw < p.idCounter :=
    hr.roster.name_lt _ (Room.mem_holdings_of_member (p.mem_members hd))
  rw [hid] at hlt
  exact absurd hn (not_le.mpr hlt)

variable [ActiveSpeakerDetector D] (F : Features)

theorem wellFormed_step (p : Process D) (op : Op) (h : p.room.WellFormed) :
    (p.step F op).room.WellFormed := by
  rcases step_room F p op with ⟨_, _, j, _, -, -, hs⟩ | ⟨stay, -, hs⟩ | ⟨acts, -, hs⟩
  · rw [hs]; exact h.step _
  · rw [hs]; exact h.step _
  · rw [hs]; exact h.run acts

theorem wellFormed_run (now : Instant) (ops : List Op) :
    (run F (start now : Process D) ops).room.WellFormed := by
  have hstep : ∀ (p : Process D) (op : Op), p.room.WellFormed → (p.step F op).room.WellFormed :=
    fun p op h => wellFormed_step F p op h
  exact Run.invariant_all hstep ops Room.wellFormed_empty

/-- A call keeps everybody from hearing twice, if it inserts nobody into an unsettled room. -/
theorem atMostOnce_step (p : Process D) (op : Op) (hr : p.room.WellFormed)
    (h : p.room.AtMostOnce) (hop : p.InsertsSettled op) : (p.step F op).room.AtMostOnce := by
  rcases step_room F p op with ⟨id, now, j, c, rfl, -, hs⟩ | ⟨stay, -, hs⟩ | ⟨acts, hacts, hs⟩
  · rw [hs]
    exact h.step hr (settled_of_insertsSettled p hr hop)
  · rw [hs]
    exact h.step hr trivial
  · rw [hs]
    exact h.run hr hacts

/-- A call keeps everybody informed, if it inserts nobody with a track among others. -/
theorem atLeastOnce_step (p : Process D) (op : Op) (hr : p.room.WellFormed)
    (h : p.room.AtLeastOnce) (hop : p.InsertsTrackless op) : (p.step F op).room.AtLeastOnce := by
  rcases step_room F p op with ⟨id, now, j, c, rfl, hheld, hs⟩ | ⟨stay, -, hs⟩ | ⟨acts, hacts, hs⟩
  · rw [hs]
    refine h.step hr ?_
    intro m hm
    obtain ⟨hj, -⟩ := heldAt_eq_some hheld
    have hlobby : p.room.lobby[j]? = some c.member := by
      rw [room, List.getElem?_map, hj]
      rfl
    rw [hlobby] at hm
    obtain rfl := Option.some.inj hm
    refine (hop id rfl (j, c) hheld).imp (fun hnil => ?_) (fun hempty => ?_)
    · have hnil : c.tracksIn = [] := hnil
      simp [Client.member, Client.arcs, hnil]
    · simp [room, hempty]
  · rw [hs]
    exact h.step hr trivial
  · rw [hs]
    exact h.run hr hacts

/-- In every run that inserts clients only while no `TrackOpen` of a connected client is
queued, no client is ever subscribed twice to a track of another client. -/
theorem noDuplicates_run (now : Instant) (ops : List Op)
    (h : Run.Along (step F) InsertsSettled (start now : Process D) ops) :
    (run F (start now : Process D) ops).NoDuplicates := by
  have hstep : ∀ (p : Process D) (op : Op), p.room.WellFormed ∧ p.room.AtMostOnce →
      p.InsertsSettled op → (p.step F op).room.WellFormed ∧ (p.step F op).room.AtMostOnce :=
    fun p op hp hop => ⟨wellFormed_step F p op hp.1, atMostOnce_step F p op hp.1 hp.2 hop⟩
  have hrun := Run.invariant hstep (s := (start now : Process D))
    ⟨Room.wellFormed_empty, by intro s hs; cases hs⟩ h
  exact noDuplicates_of_room _ hrun.2

/-- Client 0 opens a video track in the first poll, and nothing else happens. -/
def openFirst (mid : SfuMid) : Feed := fun id =>
  if id = ⟨0⟩ then [(0, some (.event (.mediaAdded mid .video)))] else []

/-- Client 1 joins between the poll and the fanout, and is told twice. -/
theorem noDuplicates_fails : ¬ (run .full (start 0 : Process PeerDetector)
    [.clientNew .new .throwaway, .clientNew .new .throwaway, .insert ⟨0⟩ 0,
      .pollAll 0 (openFirst ⟨0⟩), .insert ⟨1⟩ 0, .fanoutPending 0]).NoDuplicates := by
  decide

/-- Client 1 joins before the poll, and is told once. -/
theorem noDuplicates_run_join_first : (run .full (start 0 : Process PeerDetector)
    [.clientNew .new .throwaway, .clientNew .new .throwaway, .insert ⟨0⟩ 0, .insert ⟨1⟩ 0,
      .pollAll 0 (openFirst ⟨0⟩), .fanoutPending 0]).NoDuplicates :=
  noDuplicates_run .full 0 _ (by decide)

/-- In every run that inserts clients with open tracks only into an empty room, whenever no
`TrackOpen` is queued the subscription graph is complete. -/
theorem fullySubscribed_run (now : Instant) (ops : List Op)
    (h : Run.Along (step F) InsertsTrackless (start now : Process D) ops)
    (hq : (run F (start now : Process D) ops).NoTrackOpen) :
    (run F (start now : Process D) ops).FullySubscribed := by
  have hstep : ∀ (p : Process D) (op : Op), p.room.WellFormed ∧ p.room.AtLeastOnce →
      p.InsertsTrackless op → (p.step F op).room.WellFormed ∧ (p.step F op).room.AtLeastOnce :=
    fun p op hp hop => ⟨wellFormed_step F p op hp.1, atLeastOnce_step F p op hp.1 hp.2 hop⟩
  have hrun := Run.invariant hstep (s := (start now : Process D))
    ⟨Room.wellFormed_empty, by intro s hs; cases hs⟩ h
  exact fullySubscribed_of_room _ hrun.2 hq

/-- Client 1 opens a track while it is held, and client 0 is never told. -/
theorem fullySubscribed_fails :
    let p := run .full (start 0 : Process PeerDetector)
      [.clientNew .new .throwaway, .clientNew .new .throwaway, .insert ⟨0⟩ 0,
        .heldPoll ⟨1⟩ 0 (some (.event (.mediaAdded ⟨0⟩ .video))), .insert ⟨1⟩ 0, .fanoutPending 0]
    p.NoTrackOpen ∧ ¬ p.FullySubscribed := by
  decide

/-- A track opened after both joined reaches the other client. -/
theorem fullySubscribed_run_join_first : (run .full (start 0 : Process PeerDetector)
    [.clientNew .new .throwaway, .clientNew .new .throwaway, .insert ⟨0⟩ 0, .insert ⟨1⟩ 0,
      .pollAll 0 (openFirst ⟨0⟩), .fanoutPending 0]).FullySubscribed :=
  fullySubscribed_run .full 0 _ (by decide) (by decide)

end Process
end SfuKit
