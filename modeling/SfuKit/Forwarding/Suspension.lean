import SfuKit.Pacer.AudioOnly
import SfuKit.Tracks.Listings

/-! # Suspension drops exactly the video

A suspended subscriber tells audio from video by its own `tracks_out` entries, and takes
what it does not know for video. Clients that are inserted before they open a track know
every track by the time its packets arrive, so only video is dropped.
-/
namespace SfuKit

open Library Library.Announcement

/-- The media line a result of str0m brings a packet on. -/
def packetMid : PollResult → Option SfuMid
  | some (.event (.mediaData data)) => some data.mid
  | _ => none

/-- Every packet of a feed comes on a media line that is open by then. -/
def OpensFirst : List SfuMid → List (Instant × PollResult) → Prop
  | _, [] => True
  | opened, x :: rest =>
    (∀ mid ∈ packetMid x.2, mid ∈ opened) ∧ OpensFirst (opened ++ (openedMid x.2).toList) rest

instance OpensFirst.decidable : ∀ opened feed, Decidable (OpensFirst opened feed)
  | _, [] => .isTrue trivial
  | opened, x :: rest =>
    have := OpensFirst.decidable (opened ++ (openedMid x.2).toList) rest
    inferInstanceAs (Decidable (_ ∧ _))

def Client.openMids (c : Client) : List SfuMid := c.arcs.map (·.track.mid)

namespace Registry
variable {D : Type*} (F : Features) (now : Instant)

/-- If a packet without a RID is popped next, and is one of an open track, it is counted for
every other client that is suspended exactly if the track is audio. -/
def DropsVideoOnly (r : Registry D) : Prop :=
  ∀ owner data rest, r.toPropagate = .mediaData owner data :: rest → data.rid = none →
    ∀ q ∈ r.clients, q.id = owner → ∀ t ∈ q.tracksIn, t.id.track.mid = data.mid →
      ∀ (i : ℕ) (s s' : Client), r.clients[i]? = some s →
        (r.fanoutStep F now).clients[i]? = some s' → s.id ≠ owner → s'.suspended = true →
          s'.deliveredMedia = s.deliveredMedia + if t.id.track.kind = .audio then 1 else 0

/-- What lets suspended clients tell audio from video. `Met` holds of the clients that have
been in the room: only they have packets on the queue. -/
structure Heard (kindOf : ClientId → SfuMid → MediaKind) (Met : ClientId → Prop)
    (r : Registry D) : Prop where
  heralded : Heralded r.listings (routed r.toPropagate)
  typed : ∀ x ∈ r.listings, ∀ a ∈ x.arcs,
    a.track.origin = x.id ∧ a.track.kind = kindOf x.id a.track.mid
  packets : ∀ owner data, Propagated.mediaData owner data ∈ routed r.toPropagate →
    Met owner ∧ ∃ d, data = .fromStr0m d

namespace Heard
variable {kindOf : ClientId → SfuMid → MediaKind} {Met : ClientId → Prop} {r r' : Registry D}

theorem of_eq (h : r.Heard kindOf Met) (hl : r'.listings = r.listings)
    (hq : routed r'.toPropagate = routed r.toPropagate) : r'.Heard kindOf Met := by
  refine ⟨?_, ?_, ?_⟩
  · rw [hl, hq]
    exact h.heralded
  · rw [hl]
    exact h.typed
  · rw [hq]
    exact h.packets

theorem publish (h : r.Heard kindOf Met) {i : ℕ} {c : Client}
    (hi : r.listings[i]? = some c.listing) {a : ArcTrack}
    (ha : a.track.origin = c.id ∧ a.track.kind = kindOf c.id a.track.mid)
    (hl : r'.listings = r.listings.set i { c.listing with arcs := c.arcs ++ [a] })
    (hq : routed r'.toPropagate = routed r.toPropagate ++ [.trackOpen c.id a.addr]) :
    r'.Heard kindOf Met := by
  refine ⟨?_, ?_, ?_⟩
  · rw [hl, hq]
    exact h.heralded.publish hi _
  · rw [hl]
    intro y hy b hb
    rcases List.mem_or_eq_of_mem_set hy with hy | rfl
    · exact h.typed y hy b hb
    · rcases List.mem_append.mp hb with hb | hb
      · exact h.typed _ (List.mem_of_getElem? hi) b hb
      · obtain rfl := List.mem_singleton.mp hb
        exact ha
  · rw [hq]
    intro owner data hm
    refine h.packets owner data ?_
    simpa using hm

theorem send (h : r.Heard kindOf Met) (hnodup : r.ids.Nodup) {c : Client}
    (hc : c.listing ∈ r.listings) (hmet : Met c.id) {data : MediaData}
    (hopen : data.mid ∈ c.openMids) (hl : r'.listings = r.listings)
    (hq : routed r'.toPropagate =
      routed r.toPropagate ++ [.mediaData c.id (.fromStr0m data)]) : r'.Heard kindOf Met := by
  obtain ⟨a, haa, ham⟩ := List.mem_map.mp hopen
  refine ⟨?_, ?_, ?_⟩
  · rw [hl, hq]
    refine h.heralded.send ?_ hc haa ham
    rw [← ids_eq_listings]
    exact hnodup
  · rw [hl]
    exact h.typed
  · rw [hq]
    intro owner d hm
    rcases List.mem_append.mp hm with hm | hm
    · exact h.packets owner d hm
    · obtain ⟨rfl, rfl⟩ : owner = c.id ∧ d = .fromStr0m data := by simpa using hm
      exact ⟨hmet, data, rfl⟩

theorem mono {Met' : ClientId → Prop} (h : r.Heard kindOf Met) (hmet : ∀ id, Met id → Met' id) :
    r.Heard kindOf Met' :=
  ⟨h.heralded, h.typed, fun owner data hd => (h.packets owner data hd).imp_left (hmet owner)⟩

theorem typed_heap (h : r.Heard kindOf Met) : Typed kindOf r.heap := by
  intro a ha
  rw [heap_eq_listings] at ha
  obtain ⟨x, hx, hax⟩ := List.mem_flatMap.mp ha
  obtain ⟨horigin, hkind⟩ := h.typed x hx a hax
  rw [hkind, horigin]

/-- When a packet is popped, every client but its owner is subscribed to its track. -/
theorem matchesTrack (h : r.Heard kindOf Met) (haddr : (r.heap.map (·.addr)).Nodup)
    {owner : ClientId} {data : SfuMediaPayload} {q : List Propagated}
    (hq : routed r.toPropagate = .mediaData owner data :: q)
    (howner : ∃ x ∈ r.clients, x.id = owner) {c : Client} (hc : c ∈ r.clients)
    (hne : c.id ≠ owner) :
    c.tracksOut.any (Client.matchesTrack r.heap owner data.mid) = true := by
  obtain ⟨x, hx, hid⟩ := howner
  have hx : x.listing ∈ r.listings := List.mem_map_of_mem hx
  -- The announcement came before the packet, so it is not under way any more.
  obtain ⟨b, hb, hbmid, htold⟩ := h.heralded.packets [] _ q hq owner _ rfl _ hx hid
  have hknown : b.addr ∈ c.tracksOut.map (·.trackIn) := by
    rcases htold c.listing (List.mem_map_of_mem hc) hne with hw | hw
    · exact hw
    · cases hw
  obtain ⟨o, ho, hob⟩ := List.mem_map.mp hknown
  have hbheap : b ∈ r.heap := by
    rw [heap_eq_listings]
    exact List.mem_flatMap.mpr ⟨x.listing, hx, hb⟩
  have hup : upgrade r.heap o.trackIn = some b.track := by
    have haddrs : o.trackIn ∈ r.heap.map (·.addr) := by
      rw [hob]
      exact List.mem_map_of_mem hbheap
    obtain ⟨t, ht⟩ := Option.isSome_iff_exists.mp (upgrade_isSome_iff.mpr haddrs)
    have hmem := mem_of_upgrade ht
    have hsame := List.inj_on_of_nodup_map haddr hmem hbheap hob
    rw [ht, ← hsame]
  rw [List.any_eq_true]
  refine ⟨o, ho, ?_⟩
  have hborigin := (h.typed _ hx b hb).1.trans hid
  simp only [Client.matchesTrack, hup, Option.any_some, decide_eq_true_eq]
  exact ⟨hborigin, hbmid⟩

/-- A packet that is fanned out is counted for a suspended client exactly if it is audio. -/
theorem fanout_deliveredMedia (h : r.Heard kindOf Met) (haddr : (r.heap.map (·.addr)).Nodup)
    {owner : ClientId} {data : SfuMediaPayload} {q : List Propagated}
    (hq : routed r.toPropagate = .mediaData owner data :: q)
    (howner : ∃ x ∈ r.clients, x.id = owner) {i : ℕ} {c c' : Client} (hc : r.clients[i]? = some c)
    (hc' : (r.fanout now (.mediaData owner data)).clients[i]? = some c') (hne : c.id ≠ owner)
    (hrid : data.rid = none) (hsusp : c'.suspended = true) :
    c'.deliveredMedia = c.deliveredMedia + if kindOf owner data.mid = .audio then 1 else 0 := by
  have hout : c' = (c.handleMediaDataOut r.heap owner data).1 := by
    simp only [fanout, List.getElem?_map, hc, Option.map_some, fanoutClient, if_neg hne] at hc'
    exact (Option.some.inj hc').symm
  have hbefore : c.suspended = true := by
    obtain ⟨_, _, _, heq⟩ := c.handleMediaDataOut_eq r.heap owner data
    rw [hout, heq] at hsusp
    exact hsusp
  have hmatch := h.matchesTrack haddr hq howner (List.mem_of_getElem? hc) hne
  obtain ⟨-, d, rfl⟩ := h.packets owner data (by rw [hq]; exact List.mem_cons_self)
  have hlayer : c.layerAccepts (.fromStr0m d) = true := by
    simp only [Client.layerAccepts, hrid]
  rw [hout, Client.handleMediaDataOut_deliveredMedia, Client.passesFilters, hbefore, hlayer,
    Client.isVideoTrack_eq h.typed_heap, if_pos hmatch]
  have hd : (SfuMediaPayload.fromStr0m d).mid = d.mid := rfl
  rw [hd]
  cases kindOf owner d.mid <;> rfl

theorem updatePacerLayers (h : r.Heard kindOf Met) (origin : ClientId) :
    (r.updatePacerLayers origin now).Heard kindOf Met :=
  h.of_eq (updatePacerLayers_listings now r origin) (routed_updatePacerLayers now r origin)

theorem dropsVideoOnly (h : r.Heard kindOf Met) (haddr : (r.heap.map (·.addr)).Nodup) :
    r.DropsVideoOnly F now := by
  intro owner data rest hq hrid x hx hid t ht hmid i s s' hs hs' hne hsusp
  have hkind : t.id.track.kind = kindOf owner data.mid := by
    rw [← hmid, ← hid]
    exact (h.typed x.listing (List.mem_map_of_mem hx) t.id (List.mem_map_of_mem ht)).2
  have hcons : routed r.toPropagate = .mediaData owner data :: routed rest := by
    rw [hq]
    rfl
  rw [hkind]
  simp only [Registry.fanoutStep, hq, fanoutEvent] at hs'
  split_ifs at hs' with hF
  · -- The pacers are driven first; that leaves the room and the counters alone.
    let r₁ : Registry D := { Registry.updatePacerLayers { r with toPropagate := rest } owner now with
      toPropagate := r.toPropagate }
    have hl : r₁.listings = r.listings := updatePacerLayers_listings now _ owner
    have h₁ : r₁.Heard kindOf Met := h.of_eq hl rfl
    have haddr₁ : (r₁.heap.map (·.addr)).Nodup := by
      rw [heap_eq_listings, hl, ← heap_eq_listings]
      exact haddr
    have howner : ∃ y ∈ r₁.clients, y.id = owner := by
      have hmem : owner ∈ r₁.ids := by
        rw [ids_eq_listings, hl, ← ids_eq_listings, ← hid]
        exact List.mem_map_of_mem hx
      exact List.mem_map.mp hmem
    let d := driveSubscriber r.bandwidth owner now s
    have hs₁ : r₁.clients[i]? = some d.client := by
      simp [r₁, d, Registry.updatePacerLayers, hs]
    have hid₁ : d.client.id = s.id := congrArg Prod.fst (driveSubscriber_badge s now _ owner)
    have hcount : d.client.deliveredMedia = s.deliveredMedia := by
      simp only [d]
      rcases driveSubscriber_cases s now r.bandwidth owner with ⟨hd, -⟩ | ⟨_, -, -, -, hd, -⟩
      · rw [hd]
      · obtain ⟨_, _, hread⟩ := driveReading_client { s with lastPacerDrive := some now } now _ _
        rw [hd, hread]
    rw [← hcount]
    refine h₁.fanout_deliveredMedia now haddr₁ hcons howner hs₁ hs' ?_ hrid hsusp
    rw [hid₁]
    exact hne
  · exact h.fanout_deliveredMedia now haddr hcons ⟨x, hx, hid⟩ hs hs' hne hrid hsusp

theorem fanoutStep (h : r.Heard kindOf Met) : (r.fanoutStep F now).Heard kindOf Met := by
  unfold Registry.fanoutStep
  split
  · exact h
  · rename_i p rest hq
    obtain ⟨hl, hrest⟩ := fanoutEvent_listings F now { r with toPropagate := rest } p
    refine ⟨?_, ?_, ?_⟩
    · rw [hl, hrest]
      have hher := h.heralded
      rw [hq] at hher
      cases hp : p.isRouted with
      | true =>
        have hcons : routed (p :: rest) = p :: routed rest := by simp [routed, hp]
        rw [hcons] at hher
        exact hher.pop
      | false =>
        have hsame : Listing.hear p = id := by
          cases p <;> simp [Propagated.isRouted] at hp <;> rfl
        have hcons : routed (p :: rest) = routed rest := by simp [routed, hp]
        rw [hcons] at hher
        rw [hsame, List.map_id]
        exact hher
    · rw [hl]
      intro x hx a ha
      obtain ⟨y, hy, rfl⟩ := List.mem_map.mp hx
      rw [Listing.hear_arcs] at ha
      rw [Listing.hear_id]
      exact h.typed y hy a ha
    · rw [hrest]
      refine fun owner data hd => h.packets owner data ?_
      rw [hq]
      exact (List.Sublist.filter _ (List.sublist_cons_self p rest)).subset hd

theorem fanoutPending (h : r.Heard kindOf Met) : (r.fanoutPending F now).Heard kindOf Met :=
  fanoutPending_invariant F now (fun _ hs => hs.fanoutStep F now) h

section Detector
variable [ActiveSpeakerDetector D]

theorem pollStep {st : PollState D} (h : st.reg.Heard kindOf Met) (hnodup : st.reg.ids.Nodup)
    {i : ℕ} {c : Client} (hc : st.reg.clients[i]? = some c) (ha : c.isAlive = true)
    (hmet : Met c.id) {x : Instant × PollResult}
    (hkind : ∀ mid kind, x.2 = some (.event (.mediaAdded mid kind)) → kind = kindOf c.id mid)
    (hmid : ∀ mid ∈ packetMid x.2, mid ∈ c.openMids) :
    (Registry.pollStep F now i st x).1.reg.Heard kindOf Met ∧
      ∀ c' ∈ (Registry.pollStep F now i st x).1.reg.clients[i]?, c'.id = c.id ∧
        c'.openMids = c.openMids ++ (openedMid x.2).toList := by
  have hpoll := pollStep_listings F now x hc ha
  have hi : st.reg.listings[i]? = some c.listing := by simp [listings, hc]
  have hi' : ∀ c' ∈ (Registry.pollStep F now i st x).1.reg.clients[i]?,
      (Registry.pollStep F now i st x).1.reg.listings[i]? = some c'.listing := by
    intro c' hc'
    rw [listings, List.getElem?_map, Option.mem_def.mp hc']
    rfl
  rcases hpoll with ⟨mid, kind, hx, hl, hq⟩ | ⟨hx, hl, hq⟩
  · refine ⟨h.publish hi ⟨rfl, hkind mid kind hx⟩ hl hq, fun c' hc' => ?_⟩
    have hlisting := hi' c' hc'
    rw [hl, List.getElem?_set_self (List.getElem?_eq_some_iff.mp hi).1] at hlisting
    obtain ⟨hid, harcs, -⟩ := Listing.mk.inj (Option.some.inj hlisting)
    refine ⟨hid.symm, ?_⟩
    rw [Client.openMids, ← harcs, List.map_append, hx]
    rfl
  · have hsame : ∀ c' ∈ (Registry.pollStep F now i st x).1.reg.clients[i]?, c'.id = c.id ∧
        c'.openMids = c.openMids ++ (openedMid x.2).toList := by
      intro c' hc'
      have hlisting := hi' c' hc'
      rw [hl, hi] at hlisting
      obtain ⟨hid, harcs, -⟩ := Listing.mk.inj (Option.some.inj hlisting)
      rw [hx, Option.toList_none, List.append_nil]
      refine ⟨hid.symm, ?_⟩
      rw [Client.openMids, ← harcs]
      rfl
    refine ⟨?_, hsame⟩
    rcases hq with ⟨data, hdata, hq⟩ | hq
    · have hopen : data.mid ∈ c.openMids := hmid data.mid (by rw [hdata]; rfl)
      exact h.send hnodup (List.mem_of_getElem? hi) hmet hopen hl hq
    · exact h.of_eq hl hq

theorem pollAll (h : r.Heard kindOf Met) (hnodup : r.ids.Nodup) (hmet : ∀ id ∈ r.ids, Met id)
    {feed : Feed} (hkind : (Op.pollAll now feed).Opens fun id mid kind => kind = kindOf id mid)
    (hmids : ∀ c ∈ r.clients, OpensFirst c.openMids (feed c.id)) (nextAlloc : WeakTrack) :
    (r.pollAll F now feed nextAlloc).reg.Heard kindOf Met := by
  let P (st : PollState D) : Prop := st.reg.Heard kindOf Met ∧ st.reg.ids = r.ids
  have hstart : P ⟨r, nextAlloc, now + fromMillis 100, none⟩ := ⟨h, rfl⟩
  refine (pollAll_of_pollClients F now feed (P := P) ?_ (pollClients_feed F now feed (P := P)
    (R := fun c l => OpensFirst c.openMids l ∧ ∀ x ∈ l, x ∈ feed c.id) ?_
    (fun c hc => ⟨hmids c hc, fun _ hx => hx⟩) hstart)).1
  · intro st a s hst
    exact ⟨hst.1.of_eq rfl rfl, hst.2⟩
  · intro i st c x rest hc ha hR hst
    obtain ⟨⟨hopen, hrest⟩, hmem⟩ := hR
    obtain ⟨hheard, hc'⟩ := hst.1.pollStep F now (by rw [hst.2]; exact hnodup) hc ha
      (hmet c.id (by rw [← hst.2]; exact List.mem_map_of_mem (List.mem_of_getElem? hc)))
      (fun mid kind => hkind c.id x (hmem x List.mem_cons_self) mid kind) hopen
    refine ⟨⟨hheard, (ids_of_badges (pollStep_badges F now i st x)).trans hst.2⟩, fun c' hget => ?_⟩
    obtain ⟨hid, hm⟩ := hc' c' hget
    rw [hm, hid]
    exact ⟨hrest, fun y hy => hmem y (List.mem_cons_of_mem x hy)⟩

theorem insert (h : r.Heard kindOf Met) {c : Client} (hnone : c.tracksIn = []) (hmet : ¬ Met c.id) :
    (r.insert F now c).Heard kindOf Met := by
  have harcs : c.arcs = [] := by simp [Client.arcs, hnone]
  refine ⟨?_, ?_, h.packets⟩
  · rw [insert_listings]
    refine h.heralded.join harcs (fun y hy a ha => ?_) fun owner data hd hid => ?_
    · rw [heap_eq_listings]
      exact List.mem_append_right _
        (List.mem_map_of_mem (List.mem_flatMap.mpr ⟨y, hy, ha⟩))
    · have hid : c.id = owner := hid
      exact hmet (hid ▸ (h.packets owner data hd).1)
  · rw [insert_listings]
    intro x hx a ha
    rcases List.mem_append.mp hx with hx | hx
    · exact h.typed x hx a ha
    · rw [List.mem_singleton.mp hx] at ha
      dsimp only at ha
      rw [harcs] at ha
      cases ha

theorem reapDead (h : r.Heard kindOf Met) : (r.reapDead F).Heard kindOf Met := by
  have hsub : (r.reapDead F).listings ⊆ r.listings :=
    List.map_subset _ (List.filter_subset_self _)
  exact ⟨h.heralded.leave hsub, fun x hx => h.typed x (hsub hx), h.packets⟩

end Detector
end Heard
end Registry

namespace Process
variable {D : Type*}

/-- A client is inserted only before it has opened a track. -/
def InsertsBeforeOpening (p : Process D) (op : Op) : Prop :=
  ∀ id ∈ op.inserted, ∀ x ∈ p.heldAt id, x.2.tracksIn = []

/-- str0m brings packets only on media lines it has reported. -/
def OpensBeforePackets (p : Process D) : Op → Prop
  | .pollAll _ feed => ∀ c ∈ p.reg.clients, OpensFirst c.openMids (feed c.id)
  | _ => True

instance (p : Process D) (op : Op) : Decidable (p.InsertsBeforeOpening op) :=
  inferInstanceAs (Decidable (∀ id ∈ op.inserted, ∀ x ∈ p.heldAt id, x.2.tracksIn = []))

instance (p : Process D) : (op : Op) → Decidable (p.OpensBeforePackets op)
  | .pollAll _ feed =>
    inferInstanceAs (Decidable (∀ c ∈ p.reg.clients, OpensFirst c.openMids (feed c.id)))
  | .clientNew .. | .heldPoll .. | .setOrigin .. | .setDesiredLayer .. | .connection ..
  | .dropHeld .. | .insert .. | .fanoutPending .. | .updatePacerLayers ..
  | .emitPublisherLayerHints | .reapDead | .onTwccFeedback .. | .recordSendTime ..
  | .recordNativeEstimate .. | .clientBudgetHint .. | .enableGoogcc .. | .googccOnReceive ..
  | .recordAudioLevel .. | .tickActiveSpeaker .. | .tickSpeakerScores => .isTrue trivial

/-- An id that has been drawn and does not wait to be inserted. -/
def Met (p : Process D) (id : ClientId) : Prop :=
  id.raw < p.idCounter ∧ ∀ c ∈ p.held, c.id ≠ id

variable {kindOf : ClientId → SfuMid → MediaKind} {p : Process D}

/-- A call that leaves the listings and the routed events alone, and holds no client that
was not held before or is new. -/
theorem heard_of_eq (h : p.reg.Heard kindOf p.Met) {p' : Process D}
    (hl : p'.reg.listings = p.reg.listings)
    (hq : routed p'.reg.toPropagate = routed p.reg.toPropagate)
    (hcounter : p.idCounter ≤ p'.idCounter)
    (hheld : ∀ c ∈ p'.held, c.id.raw < p.idCounter → ∃ d ∈ p.held, d.id = c.id) :
    p'.reg.Heard kindOf p'.Met := by
  refine (h.of_eq hl hq).mono fun id hid => ⟨lt_of_lt_of_le hid.1 hcounter, fun c hc hcid => ?_⟩
  obtain ⟨d, hd, hdid⟩ := hheld c hc (hcid ▸ hid.1)
  exact hid.2 d hd (hdid.trans hcid)

theorem heard_metricsCalls (h : p.reg.Heard kindOf p.Met) (handle : MetricsHandle)
    (calls : List MetricCall) :
    (p.metricsCalls handle calls).reg.Heard kindOf (p.metricsCalls handle calls).Met := by
  cases handle with
  | throwaway => exact h
  | registry => exact h.of_eq rfl rfl

theorem heard_onClient (h : p.reg.Heard kindOf p.Met) (id : ClientId) {f : Client → Client}
    (hf : ∀ c, (f c).listing = c.listing) :
    (p.onClient id f).reg.Heard kindOf (p.onClient id f).Met := by
  refine heard_of_eq h (onClient_map p id hf) rfl le_rfl fun c hc _ => ?_
  obtain ⟨d, hd, rfl⟩ := List.mem_map.mp hc
  refine ⟨d, hd, ?_⟩
  split_ifs
  · exact (congrArg Listing.id (hf d)).symm
  · rfl

variable [ActiveSpeakerDetector D] (F : Features)

theorem heard_step {op : Op} (hr : p.room.WellFormed) (h : p.reg.Heard kindOf p.Met)
    (hkind : op.Opens fun id mid kind => kind = kindOf id mid) (hins : p.InsertsBeforeOpening op)
    (hmids : p.OpensBeforePackets op) : (p.step F op).reg.Heard kindOf (p.step F op).Met := by
  have hheld : ∀ c ∈ p.held, c.id.raw < p.idCounter → ∃ d ∈ p.held, d.id = c.id :=
    fun c hc _ => ⟨c, hc, rfl⟩
  have hmet : ∀ id ∈ p.reg.ids, p.Met id := by
    intro id hid
    refine ⟨?_, fun c hc hcid => held_not_mem_ids hr hc (hcid ▸ hid)⟩
    obtain ⟨d, hd, rfl⟩ := List.mem_map.mp hid
    exact lt_idCounter hr (List.mem_append_left _ hd)
  have hnotice (hquiet : op.isNotice = true) :
      (p.step F op).reg.Heard kindOf (p.step F op).Met := by
    obtain ⟨detector, metrics, notices, hnotices, hstep⟩ := p.step_notice F hquiet
    have hnone : routed notices = [] := by
      apply List.filter_eq_nil_iff.mpr
      exact fun e he => by simp [Propagated.isRouted_of_isNotice (hnotices e he)]
    rw [hstep]
    refine heard_of_eq h rfl ?_ le_rfl hheld
    dsimp only
    rw [routed_append, hnone, List.append_nil]
  cases op with
  | clientNew rtc metrics =>
    apply heard_metricsCalls
    refine heard_of_eq h rfl rfl (Nat.le_succ _) fun c hc hlt => ?_
    rcases List.mem_append.mp hc with hc | hc
    · exact ⟨c, hc, rfl⟩
    · rw [List.mem_singleton.mp hc] at hlt
      exact absurd hlt (lt_irrefl _)
  | heldPoll id clock result =>
    simp only [step, heldPoll]
    cases hx : p.heldAt id with
    | none => exact h
    | some x =>
      obtain ⟨j, c⟩ := x
      obtain ⟨hj, -⟩ := heldAt_eq_some hx
      apply heard_metricsCalls
      refine heard_of_eq h rfl rfl le_rfl fun d hd _ => ?_
      rcases List.mem_or_eq_of_mem_set hd with hd | rfl
      · exact ⟨d, hd, rfl⟩
      · exact ⟨c, List.mem_of_getElem? hj, (congrArg Prod.fst (pollOutput_badge ..)).symm⟩
  | setOrigin id origin => exact heard_onClient h id fun _ => rfl
  | setDesiredLayer id rid => exact heard_onClient h id fun _ => rfl
  | connection id alive writers => exact heard_onClient h id fun _ => rfl
  | dropHeld id =>
    simp only [step, dropHeld]
    split
    · exact h
    · exact heard_of_eq h rfl rfl le_rfl fun c hc => hheld c (List.mem_of_mem_eraseIdx hc)
  | insert id now =>
    simp only [step, insert]
    cases hx : p.heldAt id with
    | none => exact h
    | some x =>
      obtain ⟨j, c⟩ := x
      obtain ⟨hj, -⟩ := heldAt_eq_some hx
      have hc := List.mem_of_getElem? hj
      refine (h.insert F now (hins id rfl (j, c) hx) fun hm => hm.2 c hc rfl).mono ?_
      exact fun id hid => ⟨hid.1, fun c hc => hid.2 c (List.mem_of_mem_eraseIdx hc)⟩
  | pollAll now feed => exact h.pollAll F now (ids_nodup hr) hmet hkind hmids p.nextAlloc
  | fanoutPending now => exact h.fanoutPending F now
  | updatePacerLayers origin now =>
    simp only [step]
    split_ifs
    · exact h.updatePacerLayers now origin
    · exact h
  | reapDead => exact h.reapDead F
  | emitPublisherLayerHints | clientBudgetHint | recordAudioLevel | tickActiveSpeaker
    | tickSpeakerScores => exact hnotice rfl
  | onTwccFeedback | recordSendTime | recordNativeEstimate | enableGoogcc | googccOnReceive =>
    simp only [step]
    split_ifs <;> exact heard_of_eq h rfl rfl le_rfl hheld

/-- In every run that inserts clients only before they open a track, and whose packets come
on media lines of one kind each that str0m has reported, every packet without a RID that is
popped for an open track reaches the suspended clients exactly if it is audio. -/
theorem dropsVideoOnly_run (kindOf : ClientId → SfuMid → MediaKind) (now : Instant)
    (ops : List Op) (hops : ∀ op ∈ ops, op.Opens fun id mid kind => kind = kindOf id mid)
    (h : Run.Along (step F) (fun p op => p.InsertsBeforeOpening op ∧ p.OpensBeforePackets op)
      (start now : Process D) ops) (k : ℕ) (t : Instant) :
    ((Registry.fanoutStep F t)^[k] (run F (start now : Process D) ops).reg).DropsVideoOnly F t := by
  let Inv (p : Process D) : Prop := p.room.WellFormed ∧ p.reg.Heard kindOf p.Met
  let Cond (p : Process D) (op : Op) : Prop :=
    (op.Opens fun id mid kind => kind = kindOf id mid) ∧ p.InsertsBeforeOpening op ∧
      p.OpensBeforePackets op
  have hstep : ∀ (p : Process D) (op : Op), Inv p → Cond p op → Inv (p.step F op) :=
    fun p op hp hop => ⟨wellFormed_step F p op hp.1, heard_step F hp.1 hp.2 hop.1 hop.2.1 hop.2.2⟩
  have hstart : Inv (start now : Process D) := by
    refine ⟨Room.wellFormed_empty, .nil, fun x hx => ?_, fun owner data hd => ?_⟩
    · cases hx
    · cases hd
  have hcond : Run.Along (step F) Cond (start now : Process D) ops :=
    (Run.along_of_forall hops _).and h
  obtain ⟨hr, hheard⟩ := Run.invariant hstep hstart hcond
  have hdrain := Function.Iterate.rec
    (fun s : Registry D => s.Heard kindOf _ ∧ (s.heap.map (·.addr)).Nodup) ⟨hheard, addrs_nodup hr⟩
    (fun s hs => ⟨hs.1.fanoutStep F t, by rw [Registry.fanoutStep_heap]; exact hs.2⟩) k
  exact hdrain.1.dropsVideoOnly F t hdrain.2

/-- Client 0 opens an audio track and sends one packet on it. -/
def oneAudioPacket : Feed := fun id =>
  if id = ⟨0⟩ then
    [(0, some (.event (.mediaAdded ⟨0⟩ .audio))),
      (0, some (.event (.mediaData ⟨⟨0⟩, ⟨111⟩, none, [], 0, true, ⟨0, 48000⟩, ⟨0, false⟩, none, none⟩)))]
  else []

theorem oneAudioPacket_opens (now : Instant) :
    (Op.pollAll now oneAudioPacket).Opens fun _ _ kind => kind = .audio := by
  intro id x hx mid kind h
  unfold oneAudioPacket at hx
  split_ifs at hx
  · rcases List.mem_cons.mp hx with rfl | hx
    · cases h
      rfl
    · obtain rfl := List.mem_singleton.mp hx
      cases h
  · cases hx

/-- A subscriber suspended by two readings of 5 kbit/s is about to get a packet of audio. -/
theorem dropsVideoOnly_run_audio :
    let r := (Registry.fanoutStep .full 300000000)^[2] (run .full (start 0 : Process PeerDetector)
      [.clientNew .new .throwaway, .clientNew .new .throwaway, .insert ⟨0⟩ 0, .insert ⟨1⟩ 0,
        .recordNativeEstimate ⟨1⟩ (.num 5000), .updatePacerLayers ⟨0⟩ 0,
        .updatePacerLayers ⟨0⟩ 200000000, .pollAll 300000000 oneAudioPacket]).reg
    r.DropsVideoOnly .full 300000000 ∧
      r.toPropagate = [.mediaData ⟨0⟩ (.fromStr0m
        ⟨⟨0⟩, ⟨111⟩, none, [], 0, true, ⟨0, 48000⟩, ⟨0, false⟩, none, none⟩)] ∧
      r.clients.map Client.suspended = [false, true] := by
  refine ⟨dropsVideoOnly_run (D := PeerDetector) .full (fun _ _ => .audio) 0 _ ?_ (by decide +kernel)
    2 300000000, by decide +kernel, by decide +kernel⟩
  simp only [List.mem_cons, List.not_mem_nil, or_false, forall_eq_or_imp, forall_eq]
  exact ⟨trivial, trivial, trivial, trivial, trivial, trivial, trivial, oneAudioPacket_opens _⟩

end Process
end SfuKit
