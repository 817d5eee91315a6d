import SfuKit.Tracks.Heralds

/-! # The listings of a run

What each operation of the drive loop does to the listings of the connected clients and to
the track events and packets of the queue.
-/
namespace SfuKit

def openedMid : PollResult → Option SfuMid
  | some (.event (.mediaAdded mid _)) => some mid
  | _ => none

section Client
variable (c : Client) (now : Instant)

@[simp] theorem driveReading_listing (bps : ℕ) (signals : Option PerSubscriber) :
    (driveReading c now bps signals).client.listing = c.listing := by
  obtain ⟨_, _, h⟩ := driveReading_client c now bps signals
  rw [h]
  rfl

@[simp] theorem driveSubscriber_listing (b : BandwidthEstimator) (origin : ClientId) :
    (driveSubscriber b origin now c).client.listing = c.listing := by
  rcases driveSubscriber_cases c now b origin with ⟨h, -, -⟩ | ⟨sub, -, -, -, h, -, -⟩
  · rw [h]
  · rw [h, driveReading_listing]
    rfl

theorem fanoutClient_listing (heap : List ArcTrack) (p : Propagated) :
    (fanoutClient heap now p c).1.listing = c.listing.hear p := by
  cases p with
  | trackOpen origin w =>
    by_cases h : c.id = origin
    · simp [fanoutClient, Listing.hear, Client.listing, h]
    · simp [fanoutClient, Listing.hear, Client.listing, Client.handleTrackOpen, Client.arcs, h]
  | mediaData origin data =>
    obtain ⟨_, _, _, h⟩ := c.handleMediaDataOut_eq heap origin data
    simp only [fanoutClient]
    split_ifs
    · rfl
    · rw [h]; rfl
  | keyframeRequest origin req source mid =>
    simp only [fanoutClient, Client.handleKeyframeRequest]
    repeat' split
    all_goals rfl
  | activeSpeakerChanged peer conf =>
    simp only [fanoutClient]
    split_ifs <;> rfl
  | _ => rfl

/-- A live client opens a track, sends a packet, or does neither. -/
theorem pollOutput_listing (ha : c.isAlive = true) (heap : List ArcTrack) (addr : WeakTrack)
    (x : PollResult) :
    (∃ mid kind, x = some (.event (.mediaAdded mid kind)) ∧
      (c.pollOutput heap addr now x).1.listing =
        { c.listing with arcs := c.arcs ++ [⟨addr, ⟨c.id, mid, kind, c.isRelay⟩⟩] } ∧
      (c.pollOutput heap addr now x).2.1 = .trackOpen c.id addr) ∨
    (openedMid x = none ∧ (c.pollOutput heap addr now x).1.listing = c.listing ∧
      ((∃ data, x = some (.event (.mediaData data)) ∧
        (c.pollOutput heap addr now x).2.1 = .mediaData c.id (.fromStr0m data)) ∨
      (c.pollOutput heap addr now x).2.1.isRouted = false)) := by
  have hother : (c.pollOutput heap addr now x).1.id = c.id ∧
      (c.pollOutput heap addr now x).1.tracksOut = c.tracksOut := by
    obtain ⟨_, _, _, _, h⟩ := c.pollOutput_eq heap addr now x
    rw [h]
    exact ⟨rfl, rfl⟩
  rcases c.pollOutput_arcs heap addr now x with ⟨mid, kind, hx, harcs, hev⟩ | ⟨harcs, hev⟩
  · exact .inl ⟨mid, kind, hx, by simp [Client.listing, hother, harcs], hev⟩
  · right
    refine ⟨?_, by simp [Client.listing, hother, harcs], ?_⟩
    · -- A live client that is shown a new media line opens it.
      unfold openedMid
      split
      · rename_i mid kind
        refine absurd ?_ (hev c.id addr)
        simp [Client.pollOutput, ha, Client.handleEvent, Client.trackInAdded, ArcTrack.downgrade]
      · rfl
    · have hpolled := c.pollOutput_polled heap addr now x
      generalize (c.pollOutput heap addr now x).2.1 = p at hpolled hev
      cases hpolled with
      | trackOpen w => exact absurd rfl (hev c.id w)
      | mediaData d hd => exact .inl ⟨d, hd, rfl⟩
      | _ => exact .inr rfl

end Client

theorem routed_of_isMode {evs : List Propagated} (h : ∀ e ∈ evs, e.isMode = true) :
    routed evs = [] := by
  rw [routed, List.filter_eq_nil_iff]
  intro e he hr
  have hm := h e he
  cases e <;> simp [Propagated.isMode, Propagated.isRouted] at hm hr

namespace Registry
variable {D : Type*} (F : Features) (now : Instant)

def listings (r : Registry D) : List Listing := r.clients.map Client.listing

theorem heap_eq_listings (r : Registry D) : r.heap = r.listings.flatMap (·.arcs) := by
  simp [heap, listings, List.flatMap_map, Client.listing]

theorem ids_eq_listings (r : Registry D) : r.ids = r.listings.map (·.id) := by
  simp [ids, listings, Client.listing]

@[simp] theorem updatePacerLayers_listings (r : Registry D) (origin : ClientId) :
    (r.updatePacerLayers origin now).listings = r.listings := by
  simp [listings, updatePacerLayers]

@[simp] theorem routed_updatePacerLayers (r : Registry D) (origin : ClientId) :
    routed (r.updatePacerLayers origin now).toPropagate = routed r.toPropagate := by
  obtain ⟨evs, h, -, hmode⟩ := updatePacerLayers_queue now r origin
  rw [h, routed_append, routed_of_isMode hmode, List.append_nil]

@[simp] theorem fanout_listings (r : Registry D) (p : Propagated) :
    (r.fanout now p).listings = r.listings.map (Listing.hear p) := by
  simp [listings, fanout, fanoutClient_listing]

theorem fanoutEvent_listings (r : Registry D) (p : Propagated) :
    (r.fanoutEvent F now p).listings = r.listings.map (Listing.hear p) ∧
      routed (r.fanoutEvent F now p).toPropagate = routed r.toPropagate := by
  cases p with
  | mediaData origin data =>
    simp only [fanoutEvent]
    split_ifs
    · exact ⟨by simp, routed_updatePacerLayers now r origin⟩
    · exact ⟨fanout_listings now r _, rfl⟩
  | clientBudgetHint peer bps =>
    simp only [fanoutEvent]
    split_ifs
    · refine ⟨?_, rfl⟩
      have hsame : Listing.hear (.clientBudgetHint peer bps) = id := rfl
      rw [hsame, List.map_id]
      rfl
    · exact ⟨fanout_listings now r _, rfl⟩
  | _ => exact ⟨fanout_listings now r _, rfl⟩

@[simp] theorem fanoutStep_heap (r : Registry D) : (r.fanoutStep F now).heap = r.heap := by
  unfold fanoutStep
  split
  · rfl
  · rw [heap_eq_listings, (fanoutEvent_listings F now _ _).1, List.flatMap_map, heap_eq_listings]
    simp only [Listing.hear_arcs]
    rfl

/-- The newcomer has its own tracks and knows those of the room. -/
theorem insert_listings [ActiveSpeakerDetector D] (r : Registry D) (c : Client) :
    (r.insert F now c).listings = r.listings ++
      [⟨c.id, c.arcs, c.tracksOut.map (·.trackIn) ++ r.heap.map (·.addr)⟩] := by
  rw [listings, insert_clients, List.map_append, List.map_singleton]
  simp [Client.listing, Client.arcs, listings, Function.comp_def]

section Poll
variable [ActiveSpeakerDetector D]

/-- A polled event that is to be routed enters the queue, and nothing else of the kind. -/
theorem handlePolled_listings (clock : Instant) (i : ℕ) (c : Client) (st : PollState D)
    (p : Propagated) (hc : st.reg.clients[i]? = some c) :
    let r := (handlePolled F now clock i c st p).1.reg
    r.listings = st.reg.listings ∧
      routed r.toPropagate = routed st.reg.toPropagate ++ routed [p] := by
  intro r
  constructor
  · rcases handlePolled_clients F now clock i c st p with h | ⟨-, bps, h⟩
    · simp only [r, listings, h]
    · simp only [r, listings, h]
      exact map_set_eq _ _ hc (driveReading_listing ..)
  · rcases handlePolled_queue F now clock i c st p with ⟨h, hp⟩ | ⟨modes, h, hmode⟩
    · have hnone : routed [p] = [] := by rcases hp with rfl | ⟨t, rfl⟩ <;> rfl
      simp only [r, h, hnone, List.append_nil]
    · simp only [r, h]
      rw [routed_append, ← List.singleton_append, routed_append, routed_of_isMode hmode,
        List.append_nil]

theorem pollStep_listings {i : ℕ} {st : PollState D} {c : Client} (x : Instant × PollResult)
    (hc : st.reg.clients[i]? = some c) (ha : c.isAlive = true) :
    let r := (pollStep F now i st x).1.reg
    (∃ mid kind, x.2 = some (.event (.mediaAdded mid kind)) ∧
      let a : ArcTrack := ⟨st.nextAlloc, ⟨c.id, mid, kind, c.isRelay⟩⟩
      r.listings = st.reg.listings.set i { c.listing with arcs := c.arcs ++ [a] } ∧
        routed r.toPropagate = routed st.reg.toPropagate ++ [.trackOpen c.id a.addr]) ∨
    (openedMid x.2 = none ∧ r.listings = st.reg.listings ∧
      ((∃ data, x.2 = some (.event (.mediaData data)) ∧ routed r.toPropagate =
        routed st.reg.toPropagate ++ [.mediaData c.id (.fromStr0m data)]) ∨
      routed r.toPropagate = routed st.reg.toPropagate)) := by
  have hpoll := pollOutput_listing c x.1 ha st.reg.heap st.nextAlloc x.2
  have hlt : i < st.reg.clients.length := (List.getElem?_eq_some_iff.mp hc).1
  unfold pollStep
  rw [hc]
  simp only [ha, if_true]
  generalize c.pollOutput st.reg.heap st.nextAlloc x.1 x.2 = q at hpoll
  obtain ⟨c', p, calls⟩ := q
  dsimp only at hpoll ⊢
  have hget : (st.reg.clients.set i c')[i]? = some c' := by rw [List.getElem?_set_self hlt]
  obtain ⟨hl, hq⟩ := handlePolled_listings F now x.1 i c'
    { st with reg := { st.reg with clients := st.reg.clients.set i c'
                                   metrics := st.reg.metrics.calls calls }
              nextAlloc := st.nextAlloc + 1 } p hget
  have hset : ∀ r : Registry D, r.clients = st.reg.clients.set i c' →
      r.listings = st.reg.listings.set i c'.listing := by
    intro r hr
    rw [listings, hr, List.map_set]
    rfl
  replace hl := hl.trans (hset _ rfl)
  rcases hpoll with ⟨mid, kind, hx, hc', hp⟩ | ⟨hx, hc', hp⟩
  · left
    refine ⟨mid, kind, hx, ?_, ?_⟩
    · rw [hl, hc']
    · rw [hq, hp]
      rfl
  · right
    refine ⟨hx, ?_, ?_⟩
    · rw [hl, hc', listings, ← List.map_set, map_set_eq Client.listing _ hc rfl]
    · rcases hp with ⟨data, hx, hp⟩ | hp
      · exact .inl ⟨data, hx, by rw [hq, hp]; rfl⟩
      · right
        have hnone : routed [p] = [] := by simp [routed, hp]
        rw [hq, hnone, List.append_nil]

end Poll

end Registry
end SfuKit
