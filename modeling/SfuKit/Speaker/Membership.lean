import SfuKit.Tracks.CrossAdvertisement

/-! # Membership of the speaker detector

Insertion captures in `in_speaker_detector` whether a client is registered with the
detector, and the sweep and `record_audio_level` go by that flag. `poll_all` records
levels by the live origin, and recording a level registers an unknown peer.
-/
namespace SfuKit

open Library Library.Announcement

def hasLevel : PollResult → Bool
  | some (.event (.mediaData data)) => (SfuMediaPayload.fromStr0m data).audioLevel.isSome
  | _ => false

theorem hasLevel_of_endsPolling {x : PollResult} (h : endsPolling x = true) :
    hasLevel x = false := by
  rcases x with - | - | t | e
  · rfl
  · rfl
  · rfl
  · cases e with
    | mediaData data => cases h
    | _ => rfl

/-- `poll_all` is handed a packet with an audio level by this client. -/
def Feed.heard (feed : Feed) (id : ClientId) : Bool :=
  ((feed id).takeWhile fun x => !endsPolling x.2).any fun x => hasLevel x.2

namespace Client
variable (c : Client) (heap : List ArcTrack) (addr : WeakTrack) (now : Instant)

theorem pollOutput_continues (h : c.isAlive = true) {x : PollResult} (hx : endsPolling x = false) :
    (c.pollOutput heap addr now x).1.isAlive = true ∧
      ∀ t, (c.pollOutput heap addr now x).2.1 ≠ .timeout t := by
  unfold pollOutput
  rw [if_pos h]
  rcases x with - | - | t | e
  · cases hx
  · exact ⟨h, by simp⟩
  · cases hx
  · cases e with
    | iceDisconnected => cases hx
    | mediaData data =>
      obtain ⟨_, _, _, hm, -⟩ := c.trackInMedia_eq now data
      refine ⟨?_, by simp [handleEvent]⟩
      simp only [handleEvent, hm]
      exact h
    | keyframeRequest req =>
      refine ⟨h, ?_⟩
      simp only [handleEvent, incomingKeyframeReq]
      repeat' split
      all_goals simp
    | _ => exact ⟨h, by simp [handleEvent, trackInAdded, propagateBwe, propagatePeerStats]⟩

theorem pollOutput_ends (h : c.isAlive = true) {x : PollResult} (hx : endsPolling x = true) :
    (∃ t, (c.pollOutput heap addr now x).2.1 = .timeout t) ∨
      (c.pollOutput heap addr now x).1.isAlive = false := by
  unfold pollOutput
  rw [if_pos h]
  rcases x with - | - | t | e
  · exact .inr rfl
  · cases hx
  · exact .inl ⟨t, rfl⟩
  · cases e with
    | iceDisconnected => exact .inr rfl
    | _ => cases hx

end Client

namespace Registry
variable {D : Type*} [ActiveSpeakerDetector D] (F : Features) (now : Instant)

/-- What an iteration on client `i` does to the list of clients: it changes entry `i`. -/
theorem pollStep_clients {i : ℕ} {st : PollState D} {c : Client}
    (hc : st.reg.clients[i]? = some c) (ha : c.isAlive = true) (x : Instant × PollResult) :
    ∃ c', (pollStep F now i st x).1.reg.clients = st.reg.clients.set i c' ∧ c'.badge = c.badge ∧
      c'.isAlive = (c.pollOutput st.reg.heap st.nextAlloc x.1 x.2).1.isAlive := by
  have hbadge : (c.pollOutput st.reg.heap st.nextAlloc x.1 x.2).1.badge = c.badge :=
    pollOutput_badge c x.1 st.reg.heap st.nextAlloc x.2
  simp only [pollStep, hc, ha, if_true]
  generalize c.pollOutput st.reg.heap st.nextAlloc x.1 x.2 = q at hbadge
  obtain ⟨c', p, calls⟩ := q
  dsimp only at hbadge ⊢
  rcases handlePolled_clients F now x.1 i c'
    { st with reg := { st.reg with clients := st.reg.clients.set i c'
                                   metrics := st.reg.metrics.calls calls }
              nextAlloc := st.nextAlloc + 1 } p with h | ⟨-, bps, h⟩
  · exact ⟨c', h, hbadge, rfl⟩
  · rw [List.set_set] at h
    refine ⟨_, h, (driveReading_badge c' x.1 bps none).trans hbadge, ?_⟩
    obtain ⟨_, _, hd⟩ := driveReading_client c' x.1 bps none
    rw [hd]
    rfl

theorem pollStep_stop {i : ℕ} {st : PollState D} {c : Client}
    (hc : st.reg.clients[i]? = some c) (ha : c.isAlive = true) (x : Instant × PollResult) :
    (pollStep F now i st x).2 = true ↔
      ∃ t, (c.pollOutput st.reg.heap st.nextAlloc x.1 x.2).2.1 = .timeout t := by
  simp only [pollStep, hc, ha, if_true]
  cases (c.pollOutput st.reg.heap st.nextAlloc x.1 x.2).2.1 <;> simp [handlePolled]

theorem pollStep_dead {i : ℕ} {st : PollState D} {c : Client}
    (hc : st.reg.clients[i]? = some c) (ha : c.isAlive = false) (x : Instant × PollResult) :
    pollStep F now i st x = (st, true) := by
  simp [pollStep, hc, ha]

theorem pollClient_dead {i : ℕ} {st : PollState D} {c : Client}
    (hc : st.reg.clients[i]? = some c) (ha : c.isAlive = false)
    (l : List (Instant × PollResult)) : pollClient F now i st l = st := by
  cases l with
  | nil => rfl
  | cons x rest => rw [pollClient, pollStep_dead F now hc ha]

/-- The loop stops at a result that ends it, or finds the client dead after it. -/
theorem pollClient_cons_of_ends {i : ℕ} {st : PollState D} {c : Client}
    (hc : st.reg.clients[i]? = some c) (ha : c.isAlive = true) {x : Instant × PollResult}
    (hx : endsPolling x.2 = true) (rest : List (Instant × PollResult)) :
    pollClient F now i st (x :: rest) = (pollStep F now i st x).1 := by
  obtain ⟨c', hclients, -, halive⟩ := pollStep_clients F now hc ha x
  have hget : (pollStep F now i st x).1.reg.clients[i]? = some c' := by
    rw [hclients, List.getElem?_set_self (List.getElem?_eq_some_iff.mp hc).1]
  have hstop := pollStep_stop F now hc ha x
  unfold pollClient
  generalize pollStep F now i st x = q at hget hstop
  obtain ⟨st', stop⟩ := q
  cases stop with
  | true => rfl
  | false =>
    rcases c.pollOutput_ends st.reg.heap st.nextAlloc x.1 ha hx with ht | hdead
    · cases hstop.mpr ht
    · exact pollClient_dead F now hget (halive.trans hdead) rest

theorem pollClient_cons_of_continues {i : ℕ} {st : PollState D} {c : Client}
    (hc : st.reg.clients[i]? = some c) (ha : c.isAlive = true) {x : Instant × PollResult}
    (hx : endsPolling x.2 = false) (rest : List (Instant × PollResult)) :
    pollClient F now i st (x :: rest) = pollClient F now i (pollStep F now i st x).1 rest ∧
      ∃ c', (pollStep F now i st x).1.reg.clients[i]? = some c' ∧ c'.badge = c.badge ∧
        c'.isAlive = true := by
  obtain ⟨c', hclients, hbadge, halive⟩ := pollStep_clients F now hc ha x
  obtain ⟨hlive, htime⟩ := c.pollOutput_continues st.reg.heap st.nextAlloc x.1 ha hx
  constructor
  · have hstop := pollStep_stop F now hc ha x
    conv_lhs => unfold pollClient
    generalize pollStep F now i st x = q at hstop
    obtain ⟨st', stop⟩ := q
    cases stop with
    | true =>
      obtain ⟨t, ht⟩ := hstop.mp rfl
      exact absurd ht (htime t)
    | false => rfl
  · refine ⟨c', ?_, hbadge, halive.trans hlive⟩
    rw [hclients, List.getElem?_set_self (List.getElem?_eq_some_iff.mp hc).1]

theorem pollClient_getElem?_ne {i j : ℕ} (hij : j ≠ i) (l : List (Instant × PollResult))
    (st : PollState D) : (pollClient F now i st l).reg.clients[j]? = st.reg.clients[j]? := by
  induction l generalizing st with
  | nil => rfl
  | cons x rest ih =>
    have hstep : (pollStep F now i st x).1.reg.clients[j]? = st.reg.clients[j]? := by
      cases hc : st.reg.clients[i]? with
      | none => simp [pollStep, hc]
      | some c =>
        cases ha : c.isAlive with
        | false => rw [pollStep_dead F now hc ha]
        | true =>
          obtain ⟨c', h, -⟩ := pollStep_clients F now hc ha x
          rw [h, List.getElem?_set_ne hij.symm]
    unfold pollClient
    generalize pollStep F now i st x = q at hstep
    obtain ⟨st', stop⟩ := q
    cases stop with
    | true => exact hstep
    | false => exact (ih st').trans hstep

section Peers
variable {peers : D → Finset ℕ} (laws : MembershipLaws peers) (hF : F.activeSpeaker = true)
include laws hF

/-- An iteration records the level of the packet it is handed, if the client's live
origin is local. -/
theorem mem_peers_pollStep {i : ℕ} {st : PollState D} {c : Client}
    (hc : st.reg.clients[i]? = some c) (ha : c.isAlive = true) (x : Instant × PollResult) (n : ℕ) :
    n ∈ peers (pollStep F now i st x).1.reg.detector ↔
      n ∈ peers st.reg.detector ∨ hasLevel x.2 = true ∧ c.isRelay = false ∧ c.id.raw = n := by
  have hbadge : (c.pollOutput st.reg.heap st.nextAlloc x.1 x.2).1.badge = c.badge :=
    pollOutput_badge c x.1 st.reg.heap st.nextAlloc x.2
  have hp := c.pollOutput_polled st.reg.heap st.nextAlloc x.1 x.2
  have hdata : ∀ d, x.2 = some (.event (.mediaData d)) →
      (c.pollOutput st.reg.heap st.nextAlloc x.1 x.2).2.1 = .mediaData c.id (.fromStr0m d) := by
    intro d hx
    rw [hx, Client.pollOutput, if_pos ha, Client.handleEvent, Client.trackInMedia_event]
  simp only [pollStep, hc, ha, if_true]
  generalize c.pollOutput st.reg.heap st.nextAlloc x.1 x.2 = q at hbadge hp hdata
  obtain ⟨c', p, calls⟩ := q
  have hrelay : c'.isRelay = c.isRelay := by
    simp only [Client.badge, Prod.mk.injEq] at hbadge
    simp only [Client.isRelay, hbadge]
  dsimp only at hp hdata ⊢
  by_cases hx : ∃ d, x.2 = some (.event (.mediaData d))
  · obtain ⟨d, hx⟩ := hx
    rw [hdata d hx, hx]
    simp only [handlePolled, push, recordPolledLevel, hasLevel, hF, hrelay, Bool.true_and]
    cases (SfuMediaPayload.fromStr0m d).audioLevel with
    | none => simp
    | some raw =>
      cases c.isRelay with
      | true => simp
      | false => simp [laws.recordLevel, or_comm, eq_comm]
  · have hno : hasLevel x.2 = false := by
      unfold hasLevel
      split
      · exact absurd ⟨_, ‹_›⟩ hx
      · rfl
    rw [hno]
    cases hp with
    | mediaData d h => exact absurd ⟨d, h⟩ hx
    | bandwidthEstimate bps =>
      simp only [handlePolled]
      split_ifs <;> simp [push, driveAt]
    | _ => simp [handlePolled, push, recordPolledLevel]

theorem mem_peers_pollClient {i : ℕ} (l : List (Instant × PollResult)) (st : PollState D)
    (c : Client) (hc : st.reg.clients[i]? = some c) (n : ℕ) :
    n ∈ peers (pollClient F now i st l).reg.detector ↔
      n ∈ peers st.reg.detector ∨ c.isAlive = true ∧ c.isRelay = false ∧
        ((l.takeWhile fun x => !endsPolling x.2).any fun x => hasLevel x.2) = true ∧
        c.id.raw = n := by
  induction l generalizing st c with
  | nil => simp [pollClient]
  | cons x rest ih =>
    cases ha : c.isAlive with
    | false => simp [pollClient_dead F now hc ha]
    | true =>
      have hpeers := mem_peers_pollStep F now laws hF hc ha x n
      cases hend : endsPolling x.2 with
      | true =>
        have hlevel : hasLevel x.2 = false := hasLevel_of_endsPolling hend
        rw [pollClient_cons_of_ends F now hc ha hend, hpeers]
        simp [hend, hlevel]
      | false =>
        obtain ⟨hgo, c', hget, hbadge, hlive⟩ := pollClient_cons_of_continues F now hc ha hend rest
        simp only [Client.badge, Prod.mk.injEq] at hbadge
        have hrelay : c'.isRelay = c.isRelay := by simp only [Client.isRelay, hbadge]
        rw [hgo, ih _ c' hget, hpeers, hlive, hrelay, hbadge.1, List.takeWhile_cons]
        simp only [hend, Bool.not_false, if_true, List.any_cons, Bool.or_eq_true]
        tauto

/-- `poll_all` registers the live local clients it hears. -/
theorem mem_peers_pollAll (feed : Feed) (nextAlloc : WeakTrack) (r : Registry D) (n : ℕ) :
    n ∈ peers (r.pollAll F now feed nextAlloc).reg.detector ↔
      n ∈ peers r.detector ∨ ∃ c ∈ r.clients, c.isAlive = true ∧ c.isRelay = false ∧
        feed.heard c.id = true ∧ c.id.raw = n := by
  have hfold : ∀ (positions : List ℕ) (st : PollState D), positions.Nodup →
      (n ∈ peers (positions.foldl (pollAt F now feed) st).reg.detector ↔
      n ∈ peers st.reg.detector ∨ ∃ i ∈ positions, ∃ c, st.reg.clients[i]? = some c ∧
        c.isAlive = true ∧ c.isRelay = false ∧ feed.heard c.id = true ∧ c.id.raw = n) := by
    intro positions
    induction positions with
    | nil => simp
    | cons i rest ih =>
      intro st hnodup
      obtain ⟨hi, hrest⟩ := List.nodup_cons.mp hnodup
      rw [List.foldl_cons, ih _ hrest]
      unfold pollAt
      cases hc : st.reg.clients[i]? with
      | none => simp [hc]
      | some c =>
        have hframe : ∀ j ∈ rest, (pollClient F now i st (feed c.id)).reg.clients[j]? =
            st.reg.clients[j]? := by
          intro j hj
          have hne : j ≠ i := fun h => hi (h ▸ hj)
          exact pollClient_getElem?_ne F now hne _ _
        dsimp only
        rw [mem_peers_pollClient F now laws hF _ st c hc n]
        simp only [List.mem_cons, exists_eq_or_imp, hc, Option.some.injEq, exists_eq_left',
          Feed.heard]
        rw [or_assoc]
        refine or_congr_right (or_congr_right ⟨?_, ?_⟩)
        · rintro ⟨j, hj, d, hd, h⟩
          exact ⟨j, hj, d, hframe j hj ▸ hd, h⟩
        · rintro ⟨j, hj, d, hd, h⟩
          exact ⟨j, hj, d, (hframe j hj).trans hd, h⟩
  have hpoll : n ∈ peers (r.pollAll F now feed nextAlloc).reg.detector ↔
      n ∈ peers (pollClients F now feed
        ⟨r, nextAlloc, now + fromMillis 100, none⟩).reg.detector := by
    unfold pollAll
    dsimp only
    split <;> rfl
  rw [hpoll, pollClients, hfold _ _ List.nodup_range]
  refine or_congr_right ⟨?_, ?_⟩
  · rintro ⟨i, -, c, hc, h⟩
    exact ⟨c, List.mem_of_getElem? hc, h⟩
  · rintro ⟨c, hc, h⟩
    obtain ⟨i, hi, rfl⟩ := List.getElem_of_mem hc
    exact ⟨i, List.mem_range.mpr hi, _, List.getElem?_eq_getElem hi, h⟩

end Peers

/-- The sweep removes the dead clients that were registered. -/
theorem mem_peers_reapSpeakers {peers : D → Finset ℕ} (laws : MembershipLaws peers)
    (dead : List Client) (d : D) (n : ℕ) :
    n ∈ peers (reapSpeakers d dead) ↔
      n ∈ peers d ∧ ∀ c ∈ dead, c.inSpeakerDetector = true → c.id.raw ≠ n := by
  induction dead generalizing d with
  | nil => simp [reapSpeakers]
  | cons c rest ih =>
    have hcons : reapSpeakers d (c :: rest) = reapSpeakers (if c.inSpeakerDetector then
        ActiveSpeakerDetector.removePeer d c.id.raw else d) rest := rfl
    rw [hcons, ih]
    cases hflag : c.inSpeakerDetector with
    | true =>
      simp only [if_true, laws.removePeer, Finset.mem_erase, List.forall_mem_cons, hflag,
        forall_const]
      tauto
    | false => simp [hflag]

theorem registerSpeaker_eq (hF : F.activeSpeaker = true) (r : Registry D) (c : Client) :
    r.registerSpeaker F now c = ({ c with inSpeakerDetector := !c.isRelay },
      if !c.isRelay then ActiveSpeakerDetector.addPeer r.detector c.id.raw (r.nowMs now)
      else r.detector) := by
  unfold registerSpeaker
  rw [if_pos hF]

omit [ActiveSpeakerDetector D] in
theorem fanoutPending_detector (r : Registry D) :
    (r.fanoutPending F now).detector = r.detector := by
  refine fanoutPending_invariant F now (P := fun s => s.detector = r.detector) ?_ rfl
  intro s hs
  rw [← hs]
  unfold fanoutStep
  split
  · rfl
  · unfold fanoutEvent
    split
    · split_ifs <;> rfl
    · split_ifs <;> rfl
    · rfl

/-- Insertion flags the newcomer or not, and registers it if it is flagged. -/
theorem insert_speaker (hF : F.activeSpeaker = true) (r : Registry D) (c : Client) :
    ∃ c' : Client, (r.insert F now c).clients = r.clients ++ [c'] ∧ c'.id = c.id ∧
      (r.insert F now c).detector = if c'.inSpeakerDetector then
        ActiveSpeakerDetector.addPeer r.detector c.id.raw (r.nowMs now) else r.detector := by
  refine ⟨_, insert_clients F now r c, rfl, ?_⟩
  simp only [insert, registerSpeaker_eq F now hF, announceExisting_eq, hF, if_true]
  rfl

end Registry

namespace Process
variable {D : Type*}

/-- The ids of the clients that were registered with the detector when inserted. -/
def registered (p : Process D) : Finset ℕ :=
  ((p.reg.clients.filter Client.inSpeakerDetector).map (·.id.raw)).toFinset

/-- The detector's peers are exactly the registered clients. -/
def DetectorExact (peers : D → Finset ℕ) (p : Process D) : Prop :=
  peers p.reg.detector = p.registered

instance (p : Process PeerDetector) : Decidable (p.DetectorExact PeerDetector.peers) :=
  inferInstanceAs (Decidable (p.reg.detector.peers = p.registered))

/-- `poll_all` is handed audio levels only by clients that were registered, or that it
takes for relays. -/
def LevelsRegistered (p : Process D) : Op → Prop
  | .pollAll _ feed => ∀ c ∈ p.reg.clients, c.isAlive = true → c.isRelay = false →
      feed.heard c.id = true → c.inSpeakerDetector = true
  | _ => True

instance (p : Process D) : DecidablePred p.LevelsRegistered
  | .pollAll _ feed => inferInstanceAs (Decidable (∀ c ∈ p.reg.clients, c.isAlive = true →
      c.isRelay = false → feed.heard c.id = true → c.inSpeakerDetector = true))
  | .clientNew .. | .heldPoll .. | .setOrigin .. | .setDesiredLayer .. | .connection ..
  | .dropHeld .. | .insert .. | .fanoutPending .. | .updatePacerLayers ..
  | .emitPublisherLayerHints | .reapDead | .onTwccFeedback .. | .recordSendTime ..
  | .recordNativeEstimate .. | .clientBudgetHint .. | .enableGoogcc .. | .googccOnReceive ..
  | .recordAudioLevel .. | .tickActiveSpeaker .. | .tickSpeakerScores => isTrue trivial

theorem mem_registered {p : Process D} {n : ℕ} :
    n ∈ p.registered ↔ ∃ c ∈ p.reg.clients, c.inSpeakerDetector = true ∧ c.id.raw = n := by
  simp [registered, and_assoc]

theorem registered_eq {p q : Process D}
    (h : q.reg.clients.map (fun c => (c.id, c.inSpeakerDetector)) =
      p.reg.clients.map fun c => (c.id, c.inSpeakerDetector)) : q.registered = p.registered := by
  have hof : ∀ p : Process D, p.registered =
      (((p.reg.clients.map fun c => (c.id, c.inSpeakerDetector)).filter (·.2)).map
        (·.1.raw)).toFinset := by
    intro p
    rw [List.filter_map, List.map_map]
    rfl
  rw [hof, hof, h]

theorem registered_of_badges {p q : Process D} (h : q.reg.badges = p.reg.badges) :
    q.registered = p.registered := by
  refine registered_eq ?_
  have hmap := congrArg (List.map fun b => (b.1, b.2.2)) h
  simpa [Registry.badges, Client.badge, Function.comp_def] using hmap

theorem client_inj {p : Process D} (hr : p.room.WellFormed) {c d : Client}
    (hc : c ∈ p.reg.clients) (hd : d ∈ p.reg.clients) (h : c.id.raw = d.id.raw) : c = d :=
  eq_of_id hr (List.mem_append_left _ hc) (List.mem_append_left _ hd) (ClientId.ext h)

theorem DetectorExact.of_frame {peers : D → Finset ℕ} {p q : Process D}
    (h : p.DetectorExact peers) (hpeers : peers q.reg.detector = peers p.reg.detector)
    (hflags : q.registered = p.registered) : q.DetectorExact peers := by
  rw [DetectorExact, hpeers, hflags]
  exact h

section Laws
variable [ActiveSpeakerDetector D] (F : Features) {peers : D → Finset ℕ}
  (laws : MembershipLaws peers) (hF : F.activeSpeaker = true)
include laws hF

theorem detectorExact_insert {p : Process D} (h : p.DetectorExact peers) (id : ClientId)
    (now : Instant) : (p.step F (.insert id now)).DetectorExact peers := by
  simp only [step, insert]
  cases hheld : p.heldAt id with
  | none => exact h
  | some x =>
    obtain ⟨j, c⟩ := x
    obtain ⟨c', hclients, hid, hdet⟩ := p.reg.insert_speaker F now hF c
    rw [DetectorExact, hdet]
    ext n
    rw [mem_registered]
    dsimp only
    rw [hclients]
    simp only [List.mem_append, List.mem_singleton, or_and_right, exists_or, exists_eq_left]
    rw [← mem_registered, ← h]
    cases hflag : c'.inSpeakerDetector with
    | true => simp [laws.addPeer, hid, or_comm, eq_comm]
    | false => simp

theorem detectorExact_reapDead {p : Process D} (hr : p.room.WellFormed)
    (h : p.DetectorExact peers) : (p.step F .reapDead).DetectorExact peers := by
  ext n
  simp only [step, Registry.reapDead, hF, if_true]
  rw [Registry.mem_peers_reapSpeakers laws, h, mem_registered, mem_registered]
  simp only [List.mem_filter, Bool.not_eq_true']
  constructor
  · rintro ⟨⟨c, hc, hflag, rfl⟩, hdead⟩
    refine ⟨c, ⟨hc, ?_⟩, hflag, rfl⟩
    by_contra halive
    exact hdead c ⟨hc, by simpa using halive⟩ hflag rfl
  · rintro ⟨c, ⟨hc, halive⟩, hflag, rfl⟩
    refine ⟨⟨c, hc, hflag, rfl⟩, ?_⟩
    rintro d ⟨hd, hdead⟩ - hid
    obtain rfl := client_inj hr hd hc hid
    rw [halive] at hdead
    cases hdead

/-- Polling keeps the detector exact if and only if it hears registered clients only. -/
theorem detectorExact_pollAll_iff {p : Process D} (hr : p.room.WellFormed)
    (h : p.DetectorExact peers) (now : Instant) (feed : Feed) :
    (p.step F (.pollAll now feed)).DetectorExact peers ↔
      p.LevelsRegistered (.pollAll now feed) := by
  have hflags : (p.step F (.pollAll now feed)).registered = p.registered :=
    registered_of_badges (Registry.pollAll_badges F now feed p.nextAlloc p.reg)
  have hpeers := Registry.mem_peers_pollAll F now laws hF feed p.nextAlloc p.reg
  rw [DetectorExact, hflags]
  constructor
  · intro hexact c hc halive hrelay hheard
    have hmem : c.id.raw ∈ p.registered := by
      rw [← hexact]
      exact (hpeers _).mpr (.inr ⟨c, hc, halive, hrelay, hheard, rfl⟩)
    obtain ⟨d, hd, hflag, hid⟩ := mem_registered.mp hmem
    exact client_inj hr hd hc hid ▸ hflag
  · intro hlevels
    ext n
    rw [← h]
    refine (hpeers n).trans (or_iff_left_of_imp ?_)
    rintro ⟨c, hc, halive, hrelay, hheard, rfl⟩
    rw [h]
    exact mem_registered.mpr ⟨c, hc, hlevels c hc halive hrelay hheard, rfl⟩

/-- Every call keeps the detector exact, but for a `poll_all` that hears an unregistered
client. -/
theorem detectorExact_step_iff (p : Process D) (op : Op) (hr : p.room.WellFormed)
    (h : p.DetectorExact peers) :
    (p.step F op).DetectorExact peers ↔ p.LevelsRegistered op := by
  have hframe : ∀ q : Process D, peers q.reg.detector = peers p.reg.detector →
      q.registered = p.registered → (q.DetectorExact peers ↔ True) :=
    fun q hq hflags => iff_true_intro (h.of_frame hq hflags)
  cases op with
  | pollAll now feed => exact detectorExact_pollAll_iff F laws hF hr h now feed
  | insert id now => exact iff_true_intro (detectorExact_insert F laws hF h id now)
  | reapDead => exact iff_true_intro (detectorExact_reapDead F laws hF hr h)
  | clientNew rtc metrics =>
    obtain ⟨m, hreg⟩ := metricsCalls_reg { p with
      held := p.held ++ [(Client.new ⟨p.idCounter⟩ rtc metrics).1]
      idCounter := p.idCounter + 1 } metrics (Client.new ⟨p.idCounter⟩ rtc metrics).2
    refine hframe _ (by simp only [step, clientNew, hreg]) (registered_eq ?_)
    simp only [step, clientNew, hreg]
  | heldPoll id clock result =>
    simp only [step, heldPoll]
    split
    · exact hframe _ rfl rfl
    · refine hframe _ ?_ (registered_eq ?_)
      · obtain ⟨m, hreg⟩ := metricsCalls_reg ..
        rw [hreg]
      · obtain ⟨m, hreg⟩ := metricsCalls_reg ..
        rw [hreg]
  | setOrigin id origin =>
    exact hframe _ rfl (registered_eq (p.onClient_map id fun _ => rfl))
  | setDesiredLayer id rid =>
    exact hframe _ rfl (registered_eq (p.onClient_map id fun _ => rfl))
  | connection id alive writers =>
    exact hframe _ rfl (registered_eq (p.onClient_map id fun _ => rfl))
  | dropHeld id =>
    simp only [step, dropHeld]
    split <;> exact hframe _ rfl rfl
  | fanoutPending now =>
    exact hframe _ (congrArg peers (p.reg.fanoutPending_detector F now))
      (registered_of_badges (Registry.fanoutPending_badges F now p.reg))
  | updatePacerLayers origin now =>
    simp only [step]
    split_ifs
    · exact hframe _ rfl (registered_of_badges (Registry.updatePacerLayers_badges now p.reg origin))
    · exact hframe _ rfl rfl
  | emitPublisherLayerHints => exact hframe _ rfl rfl
  | clientBudgetHint id bps => exact hframe _ rfl rfl
  | onTwccFeedback | recordSendTime | recordNativeEstimate | enableGoogcc | googccOnReceive
    | tickSpeakerScores =>
    simp only [step]
    split_ifs <;> exact hframe _ rfl rfl
  | recordAudioLevel peerId levelRaw now =>
    simp only [step, hF, if_true, Registry.recordAudioLevel]
    split_ifs with hany
    · refine hframe _ ?_ rfl
      rw [laws.recordLevel, h]
      refine Finset.insert_eq_self.mpr (mem_registered.mpr ?_)
      obtain ⟨c, hc, hflag⟩ := List.any_eq_true.mp hany
      simp only [decide_eq_true_eq] at hflag
      exact ⟨c, hc, hflag.2, hflag.1⟩
    · exact hframe _ rfl rfl
  | tickActiveSpeaker now =>
    simp only [step, hF, if_true, Registry.tickActiveSpeaker]
    have htick := laws.tick p.reg.detector (p.reg.nowMs now)
    split <;> exact hframe _ htick rfl

/-- Over any calls, the detector's peers are the registered clients in every state reached
exactly if no `poll_all` is handed an audio level by an unregistered client whose live
origin is local. -/
theorem detectorExact_run_iff (now : Instant) (ops : List Op) :
    (∀ pre, pre <+: ops → (run F (start now : Process D) pre).DetectorExact peers) ↔
      Run.Along (step F) LevelsRegistered (start now : Process D) ops := by
  have hstart : (start now : Process D).DetectorExact peers := laws.new
  have hstep : ∀ (p : Process D) (op : Op), p.room.WellFormed ∧ p.DetectorExact peers →
      ((p.step F op).room.WellFormed ∧ (p.step F op).DetectorExact peers ↔
        p.LevelsRegistered op) := by
    intro p op hp
    rw [← detectorExact_step_iff F laws hF p op hp.1 hp.2]
    exact and_iff_right (wellFormed_step F p op hp.1)
  have hrule := @Run.forall_prefix_iff _ _ (step F) LevelsRegistered
    (fun p : Process D => p.room.WellFormed ∧ p.DetectorExact peers) hstep (start now)
    ⟨Room.wellFormed_empty, hstart⟩ ops
  rw [← hrule]
  exact forall₂_congr fun pre _ => (and_iff_right (wellFormed_run F now pre)).symm

end Laws

/-- Client 0 sends an audio packet with a level. -/
def speakFirst : Feed := fun id =>
  if id = ⟨0⟩ then [(0, some (.event (.mediaData
    { mid := ⟨0⟩, pt := ⟨111⟩, rid := none, data := [], networkTime := 0, contiguous := true
      time := ⟨0, 48000⟩, params := ⟨0, false⟩, audioLevel := some (-30), keyEpoch := none })))]
  else []

/-- A relay is inserted, becomes local, speaks, disconnects and is reaped: the detector keeps
it although nobody is left. -/
theorem detectorExact_fails :
    let p := run .full (start 0 : Process PeerDetector)
      [.clientNew .new .throwaway, .setOrigin ⟨0⟩ (.relayFromSfu "edge"), .insert ⟨0⟩ 0,
        .setOrigin ⟨0⟩ .locally, .pollAll 0 speakFirst]
    let q := run .full p [.connection ⟨0⟩ false [], .reapDead]
    ¬ p.DetectorExact PeerDetector.peers ∧ q.reg.clients.length = 0 ∧
      q.reg.detector.peers ≠ ∅ := by
  decide

/-- A local client is registered when it is inserted and speaks. -/
theorem detectorExact_run_iff_speak :
    (run .full (start 0 : Process PeerDetector) [.clientNew .new .throwaway, .insert ⟨0⟩ 0,
      .pollAll 0 speakFirst]).DetectorExact PeerDetector.peers :=
  (detectorExact_run_iff .full PeerDetector.membershipLaws rfl 0 _).mpr (by decide) _
    List.prefix_rfl

end Process
end SfuKit
