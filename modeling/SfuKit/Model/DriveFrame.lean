import SfuKit.Model.ClientFrame
import SfuKit.Model.Process

/-! # Rules for the drive loop

Equations for the two drive sites, what polling and fanout keep of every
client's identity, and the induction rules of the two loops: a property that
one iteration keeps holds after the loop.
-/
namespace SfuKit

/-- The parts of a client that no drive operation writes. -/
def Client.badge (c : Client) : ClientId × ClientOrigin × Bool :=
  (c.id, c.origin, c.inSpeakerDetector)

/-- The events a pacer advance can emit. -/
def Propagated.isMode : Propagated → Bool
  | .audioOnlyMode .. | .suspendVideo .. => true
  | _ => false

/-- The events that only tell the application something. -/
def Propagated.isNotice : Propagated → Bool
  | .publisherLayerHint .. | .publisherLayerHintForUpstream .. | .clientBudgetHint ..
  | .activeSpeakerChanged .. => true
  | _ => false

/-- The calls that leave the clients and the estimators alone. -/
def Op.isNotice : Op → Bool
  | .emitPublisherLayerHints | .clientBudgetHint .. | .recordAudioLevel ..
  | .tickActiveSpeaker .. | .tickSpeakerScores => true
  | _ => false

theorem Propagated.isMode_of_isNotice {e : Propagated} (h : e.isNotice = true) :
    e.isMode = false := by
  cases e <;> first | rfl | cases h

/-- The suspended flag of the forwarding filter moves with that of the pacer. -/
theorem applyPacerAction_suspend (p : SubscriberPacer) (bps : ℕ) (id : ClientId) :
    (applyPacerAction (p.update bps).2 id).2.getD p.suspended = (p.update bps).1.suspended := by
  have hmode := congrArg Prod.snd (p.update_mode bps)
  dsimp only at hmode
  rw [hmode]
  cases (p.update bps).2 <;> rfl

section Client
variable (c : Client) (now : Instant)

theorem driveReading_client (bps : ℕ) (signals : Option PerSubscriber) :
    ∃ desiredLayer chosenRid, (driveReading c now bps signals).client =
      { c with pacer := (c.pacer.update bps).1, desiredLayer, chosenRid
               suspended := (applyPacerAction (c.pacer.update bps).2 c.id).2.getD c.suspended } := by
  obtain ⟨desiredLayer, chosenRid, h⟩ := c.drivePacer_eq bps
  refine ⟨desiredLayer, chosenRid, ?_⟩
  simp only [driveReading, Client.drivePacer_action, h]
  cases (applyPacerAction (c.pacer.update bps).2 c.id).2 <;> rfl

@[simp] theorem driveReading_history (bps : ℕ) (signals : Option PerSubscriber) :
    (driveReading c now bps signals).history =
      [.advance c.id now bps (c.pacer.update bps).2 signals] := by
  simp only [driveReading, Client.drivePacer_action]

@[simp] theorem driveReading_events (bps : ℕ) (signals : Option PerSubscriber) :
    (driveReading c now bps signals).events =
      (applyPacerAction (c.pacer.update bps).2 c.id).1.toList := by
  simp only [driveReading, Client.drivePacer_action]

@[simp] theorem driveReading_badge (bps : ℕ) (signals : Option PerSubscriber) :
    (driveReading c now bps signals).client.badge = c.badge := by
  obtain ⟨_, _, h⟩ := driveReading_client c now bps signals
  rw [h]
  rfl

/-- The tick floor lets a reading through at `now`. -/
def Client.TickDue (c : Client) (now : Instant) : Prop :=
  ∀ last ∈ c.lastPacerDrive, last + pacerMinTickInterval ≤ now

instance (c : Client) (now : Instant) : Decidable (c.TickDue now) :=
  inferInstanceAs (Decidable (∀ last ∈ c.lastPacerDrive, last + pacerMinTickInterval ≤ now))

theorem pacerTickReady_eq :
    c.pacerTickReady now pacerMinTickInterval =
      if c.TickDue now then ({ c with lastPacerDrive := some now }, true) else (c, false) := by
  unfold Client.pacerTickReady
  cases hl : c.lastPacerDrive with
  | none => rw [if_pos (by simp [Client.TickDue, hl])]
  | some last =>
    have hgap : durationSince now last < pacerMinTickInterval ↔ ¬ c.TickDue now := by
      have hsub : ∀ a b k : ℕ, 0 < k → (a - b < k ↔ ¬ b + k ≤ a) := by omega
      have hdue : c.TickDue now ↔ last + pacerMinTickInterval ≤ now := by
        simp [Client.TickDue, hl]
      rw [hdue]
      exact hsub now last pacerMinTickInterval (by decide)
    by_cases hdue : c.TickDue now
    · simp [hgap, hdue]
    · simp [hgap, hdue]

theorem driveSubscriber_due {b : BandwidthEstimator} {origin : ClientId} {sub : PerSubscriber}
    (hs : b.subscribers.lookup c.id = some sub) (ho : c.id ≠ origin) (hdue : c.TickDue now) :
    let d := driveReading { c with lastPacerDrive := some now } now (asU64 (sub.combinedBps now))
      (some sub)
    (driveSubscriber b origin now c).client = d.client ∧
      (driveSubscriber b origin now c).events = d.events ∧
      (driveSubscriber b origin now c).history = d.history := by
  unfold driveSubscriber
  rw [if_neg ho, pacerTickReady_eq, if_pos hdue]
  simp only [BandwidthEstimator.estimateWithTerm, hs, Option.map_some]
  exact ⟨rfl, rfl, rfl⟩

/-- A subscriber is passed over, or its pacer takes the combined estimate. -/
theorem driveSubscriber_cases (b : BandwidthEstimator) (origin : ClientId) :
    ((driveSubscriber b origin now c).client = c ∧ (driveSubscriber b origin now c).events = [] ∧
      (driveSubscriber b origin now c).history = []) ∨
    ∃ sub, b.subscribers.lookup c.id = some sub ∧ c.id ≠ origin ∧ c.TickDue now ∧
      let d := driveReading { c with lastPacerDrive := some now } now (asU64 (sub.combinedBps now))
        (some sub)
      (driveSubscriber b origin now c).client = d.client ∧
        (driveSubscriber b origin now c).events = d.events ∧
        (driveSubscriber b origin now c).history = d.history := by
  by_cases ho : c.id = origin
  · left
    rw [driveSubscriber, if_pos ho]
    exact ⟨rfl, rfl, rfl⟩
  · cases hs : b.subscribers.lookup c.id with
    | none =>
      left
      rw [driveSubscriber, if_neg ho]
      simp only [BandwidthEstimator.estimateWithTerm, hs, Option.map_none]
      exact ⟨rfl, rfl, rfl⟩
    | some sub =>
      by_cases hdue : c.TickDue now
      · exact .inr ⟨sub, rfl, ho, hdue, driveSubscriber_due c now hs ho hdue⟩
      · left
        rw [driveSubscriber, if_neg ho, pacerTickReady_eq, if_neg hdue]
        simp only [BandwidthEstimator.estimateWithTerm, hs, Option.map_some]
        exact ⟨rfl, rfl, rfl⟩

@[simp] theorem driveSubscriber_badge (b : BandwidthEstimator) (origin : ClientId) :
    (driveSubscriber b origin now c).client.badge = c.badge := by
  rcases driveSubscriber_cases c now b origin with ⟨h, -, -⟩ | ⟨sub, -, -, -, h, -, -⟩
  · rw [h]
  · rw [h, driveReading_badge]
    rfl

theorem driveReading_isMode (bps : ℕ) (signals : Option PerSubscriber) :
    ∀ e ∈ (driveReading c now bps signals).events, e.isMode = true := by
  rw [driveReading_events]
  cases (c.pacer.update bps).2 <;> simp [applyPacerAction, Propagated.isMode]

theorem driveSubscriber_emits (b : BandwidthEstimator) (origin : ClientId) :
    (driveSubscriber b origin now c).events.length ≤ 1 ∧
      ∀ e ∈ (driveSubscriber b origin now c).events, e.isMode = true := by
  rcases driveSubscriber_cases c now b origin with ⟨-, h, -⟩ | ⟨sub, -, -, -, -, h, -⟩
  · simp [h]
  · rw [h]
    refine ⟨?_, driveReading_isMode _ now _ _⟩
    rw [driveReading_events]
    exact Option.length_toList_le

@[simp] theorem pollOutput_badge (heap : List ArcTrack) (addr : WeakTrack) (x : PollResult) :
    (c.pollOutput heap addr now x).1.badge = c.badge := by
  obtain ⟨_, _, _, _, h⟩ := c.pollOutput_eq heap addr now x
  rw [h]
  rfl

@[simp] theorem fanoutClient_badge (heap : List ArcTrack) (p : Propagated) :
    (fanoutClient heap now p c).1.badge = c.badge := by
  cases p with
  | mediaData origin data =>
    obtain ⟨_, _, _, h⟩ := c.handleMediaDataOut_eq heap origin data
    simp only [fanoutClient]
    split_ifs
    · rfl
    · rw [h]; rfl
  | keyframeRequest origin req source mid =>
    simp only [fanoutClient, Client.handleKeyframeRequest]
    repeat' split
    all_goals rfl
  | trackOpen origin w => simp only [fanoutClient]; split_ifs <;> rfl
  | activeSpeakerChanged peer conf => simp only [fanoutClient]; split_ifs <;> rfl
  | _ => rfl

/-- What an event delivers to some clients. -/
def deliveries (heap : List ArcTrack) (clients : List Client) : Propagated → List Obs
  | .mediaData origin data =>
    (clients.filter fun c => c.id ≠ origin).map fun c =>
      .delivery c (c.handleMediaDataOut heap origin data).1 heap origin data
  | _ => []

theorem deliveries_eq (heap : List ArcTrack) (l : List Client) (p : Propagated) :
    deliveries heap l p = l.flatMap fun c => deliveries heap [c] p := by
  cases p with
  | mediaData origin data =>
    simp only [deliveries]
    induction l with
    | nil => rfl
    | cons c rest ih =>
      rw [List.flatMap_cons, ← ih, List.filter_cons, List.filter_cons]
      split_ifs <;> rfl
  | _ => simp [deliveries]

/-- The fanout to a client records the call that it makes, and nothing else. -/
theorem fanoutClient_history (heap : List ArcTrack) (p : Propagated) :
    (fanoutClient heap now p c).2.2 = deliveries heap [c] p := by
  cases p with
  | mediaData origin data =>
    by_cases ho : c.id = origin
    · simp [fanoutClient, deliveries, ho]
    · simp [fanoutClient, deliveries, ho]
  | keyframeRequest | trackOpen | activeSpeakerChanged =>
    simp only [fanoutClient]
    split_ifs <;> rfl
  | _ => rfl

end Client

theorem map_set_eq {α β : Type*} (f : α → β) (l : List α) {i : ℕ} {a b : α}
    (h : l[i]? = some a) (hf : f b = f a) : (l.set i b).map f = l.map f := by
  rw [List.map_set, hf]
  obtain ⟨hi, rfl⟩ := List.getElem?_eq_some_iff.mp h
  rw [← List.getElem_map f (h := by simpa using hi), List.set_getElem_self]

namespace Registry
variable {D : Type*}

def badges (r : Registry D) : List (ClientId × ClientOrigin × Bool) := r.clients.map Client.badge

theorem ids_eq_badges (r : Registry D) : r.ids = r.badges.map (·.1) := by
  simp [ids, badges, Client.badge]

theorem ids_of_badges {r r' : Registry D} (h : r'.badges = r.badges) : r'.ids = r.ids := by
  rw [ids_eq_badges, ids_eq_badges, h]

variable (F : Features) (now : Instant)

theorem announceExisting_eq (r : Registry D) (c : Client) : r.announceExisting c =
    { c with tracksOut := c.tracksOut ++ r.heap.map fun a => ⟨a.addr, .toOpen⟩ } := by
  unfold announceExisting
  induction r.heap generalizing c with
  | nil => simp
  | cons a rest ih =>
    rw [List.foldl_cons, ih]
    simp [Client.handleTrackOpen, ArcTrack.downgrade]

/-- The newcomer knows the room, and is registered with the detector unless it is a relay. -/
theorem insert_clients [ActiveSpeakerDetector D] (r : Registry D) (c : Client) :
    (r.insert F now c).clients = r.clients ++
      [{ c with metrics := .registry
                inSpeakerDetector := if F.activeSpeaker then !c.isRelay else c.inSpeakerDetector
                tracksOut := c.tracksOut ++ r.heap.map fun a => ⟨a.addr, .toOpen⟩ }] := by
  simp only [insert, registerSpeaker, announceExisting_eq]
  by_cases hF : F.activeSpeaker = true
  · simp only [hF, if_true]
    rfl
  · simp only [hF]
    rfl

@[simp] theorem fanout_badges (r : Registry D) (p : Propagated) :
    (r.fanout now p).badges = r.badges := by
  simp [badges, fanout]

theorem fanout_history (r : Registry D) (p : Propagated) :
    (r.fanout now p).history = r.history ++ deliveries r.heap r.clients p := by
  rw [deliveries_eq]
  simp only [fanout, fanoutClient_history]

@[simp] theorem updatePacerLayers_badges (r : Registry D) (origin : ClientId) :
    (r.updatePacerLayers origin now).badges = r.badges := by
  simp [badges, updatePacerLayers]

@[simp] theorem fanoutEvent_badges (r : Registry D) (p : Propagated) :
    (r.fanoutEvent F now p).badges = r.badges := by
  unfold fanoutEvent
  split
  · split_ifs
    · rfl
    · exact fanout_badges now r _
  · split_ifs <;> simp
  · exact fanout_badges now r _

@[simp] theorem fanoutStep_badges (r : Registry D) : (r.fanoutStep F now).badges = r.badges := by
  unfold fanoutStep
  split
  · rfl
  · exact fanoutEvent_badges F now _ _

theorem fanoutEvent_bandwidth (r : Registry D) (p : Propagated) :
    (r.fanoutEvent F now p).bandwidth =
      match p with
      | .clientBudgetHint id bps =>
        if F.kalmanBwe then r.bandwidth.recordClientHint id bps now else r.bandwidth
      | _ => r.bandwidth := by
  cases p with
  | mediaData origin data => simp only [fanoutEvent]; split_ifs <;> rfl
  | clientBudgetHint peer bps => simp only [fanoutEvent]; split_ifs <;> rfl
  | _ => rfl

theorem updatePacerLayers_queue (r : Registry D) (origin : ClientId) :
    ∃ evs, (r.updatePacerLayers origin now).toPropagate = r.toPropagate ++ evs ∧
      evs.length ≤ r.clients.length ∧ ∀ e ∈ evs, e.isMode = true := by
  refine ⟨_, rfl, ?_, ?_⟩
  · induction r.clients with
    | nil => exact le_rfl
    | cons c rest ih =>
      have hc := (driveSubscriber_emits c now r.bandwidth origin).1
      simp only [List.map_cons, List.flatMap_cons, List.length_append, List.length_cons]
      omega
  · intro e he
    obtain ⟨d, hd, hed⟩ := List.mem_flatMap.mp he
    obtain ⟨c, -, rfl⟩ := List.mem_map.mp hd
    exact (driveSubscriber_emits c now r.bandwidth origin).2 e hed

/-- Handling a popped event queues mode changes at most, and fewer than it costs. -/
theorem fanoutEvent_queue (r : Registry D) (p : Propagated) :
    ∃ evs, (r.fanoutEvent F now p).toPropagate = r.toPropagate ++ evs ∧
      evs.length + 1 ≤ eventCost r.clients.length p ∧ ∀ e ∈ evs, e.isMode = true := by
  have hnone : ∀ r' : Registry D, r'.toPropagate = r.toPropagate →
      ∃ evs, r'.toPropagate = r.toPropagate ++ evs ∧
        evs.length + 1 ≤ eventCost r.clients.length p ∧ ∀ e ∈ evs, e.isMode = true := by
    intro r' h
    refine ⟨[], by simpa using h, ?_, by simp⟩
    cases p <;> simp [eventCost]
  cases p with
  | mediaData origin data =>
    simp only [fanoutEvent]
    split_ifs
    · obtain ⟨evs, h, hlen, hmode⟩ := updatePacerLayers_queue now r origin
      exact ⟨evs, h, Nat.succ_le_succ hlen, hmode⟩
    · exact hnone _ rfl
  | clientBudgetHint peer bps =>
    refine hnone _ ?_
    simp only [fanoutEvent]
    split_ifs <;> rfl
  | _ => exact hnone _ rfl

theorem length_of_badges {r r' : Registry D} (h : r'.badges = r.badges) :
    r'.clients.length = r.clients.length := by
  simpa [badges] using congrArg List.length h

theorem fanoutStep_drainCost (r : Registry D) (h : r.toPropagate ≠ []) :
    (r.fanoutStep F now).drainCost < r.drainCost := by
  unfold fanoutStep
  cases hq : r.toPropagate with
  | nil => exact absurd hq h
  | cons p rest =>
    dsimp only
    obtain ⟨evs, hevs, hlen, hmode⟩ := fanoutEvent_queue F now { r with toPropagate := rest } p
    have hclients := length_of_badges (fanoutEvent_badges F now { r with toPropagate := rest } p)
    have hcost : (evs.map (eventCost r.clients.length)).sum = evs.length := by
      have hone : evs.map (eventCost r.clients.length) = evs.map fun _ => 1 := by
        apply List.map_congr_left
        intro e he
        have hm := hmode e he
        cases e <;> simp [Propagated.isMode] at hm <;> rfl
      simp [hone]
    simp only [drainCost, hevs, hclients, hq, List.map_append, List.sum_append, List.map_cons,
      List.sum_cons, hcost]
    dsimp only at hlen
    omega

theorem fanoutStep_nil (r : Registry D) (h : r.toPropagate = []) : r.fanoutStep F now = r := by
  unfold fanoutStep
  rw [h]

/-- The drain loop ends with an empty queue. -/
theorem fanoutPending_toPropagate (r : Registry D) : (r.fanoutPending F now).toPropagate = [] := by
  have hiter : ∀ (n : ℕ) (r : Registry D), r.drainCost ≤ n →
      ((fanoutStep F now)^[n] r).toPropagate = [] := by
    intro n
    induction n with
    | zero =>
      intro r hn
      by_contra hne
      have hlt := fanoutStep_drainCost F now r hne
      omega
    | succ n ih =>
      intro r hn
      rw [Function.iterate_succ_apply]
      by_cases hq : r.toPropagate = []
      · rw [fanoutStep_nil F now r hq]
        refine ih r ?_
        simp [drainCost, hq]
      · have hlt := fanoutStep_drainCost F now r hq
        exact ih _ (by omega)
  exact hiter _ r le_rfl

/-- The rule of the drain loop. -/
theorem fanoutPending_invariant {P : Registry D → Prop}
    (hstep : ∀ r : Registry D, P r → P (r.fanoutStep F now)) {r : Registry D} (h : P r) :
    P (r.fanoutPending F now) :=
  Function.Iterate.rec P h hstep _

@[simp] theorem fanoutPending_badges (r : Registry D) :
    (r.fanoutPending F now).badges = r.badges :=
  fanoutPending_invariant F now (P := fun s => s.badges = r.badges)
    (fun s hs => (fanoutStep_badges F now s).trans hs) rfl

section Poll
variable [ActiveSpeakerDetector D]

theorem recordPolledLevel_eq (clock : Instant) (c : Client) (r : Registry D) (p : Propagated) :
    ∃ detector, r.recordPolledLevel F clock c p = { r with detector } := by
  unfold recordPolledLevel
  repeat' split
  all_goals exact ⟨_, rfl⟩

@[simp] theorem recordPolledLevel_clients (clock : Instant) (c : Client) (r : Registry D)
    (p : Propagated) : (r.recordPolledLevel F clock c p).clients = r.clients := by
  obtain ⟨_, h⟩ := recordPolledLevel_eq F clock c r p
  rw [h]

theorem handlePolled_clients (clock : Instant) (i : ℕ) (c : Client) (st : PollState D)
    (p : Propagated) :
    (handlePolled F now clock i c st p).1.reg.clients = st.reg.clients ∨
    F.pollAllDrives = true ∧ ∃ bps, (handlePolled F now clock i c st p).1.reg.clients =
      st.reg.clients.set i (driveReading c clock bps none).client := by
  cases p with
  | bandwidthEstimate peer bps =>
    simp only [handlePolled]
    split_ifs with hl hd
    · exact .inl rfl
    · exact .inr ⟨hd, bps, rfl⟩
    · exact .inl rfl
  | _ => exact .inl (by simp [handlePolled, push])

/-- A polled event enters the queue, followed by the changes of mode it causes; a timeout
does not, nor does the absence of an event. -/
theorem handlePolled_queue (clock : Instant) (i : ℕ) (c : Client) (st : PollState D)
    (p : Propagated) :
    (handlePolled F now clock i c st p).1.reg.toPropagate = st.reg.toPropagate ∧
        (p = .noop ∨ ∃ t, p = .timeout t) ∨
    ∃ modes, (handlePolled F now clock i c st p).1.reg.toPropagate =
        st.reg.toPropagate ++ p :: modes ∧ ∀ e ∈ modes, e.isMode = true := by
  obtain ⟨_, hlevel⟩ := recordPolledLevel_eq F clock c st.reg p
  cases p with
  | noop => exact .inl ⟨rfl, .inl rfl⟩
  | timeout t => exact .inl ⟨rfl, .inr ⟨t, rfl⟩⟩
  | bandwidthEstimate peer bps =>
    right
    simp only [handlePolled]
    split_ifs
    · exact ⟨[], rfl, by simp⟩
    · exact ⟨_, List.append_assoc .., driveReading_isMode c clock bps none⟩
    · exact ⟨[], rfl, by simp⟩
  | rtcpStats peer stats => exact .inr ⟨[], rfl, by simp⟩
  | _ =>
    right
    refine ⟨[], ?_, by simp⟩
    simp only [handlePolled, hlevel]
    rfl

theorem handlePolled_bandwidth (clock : Instant) (i : ℕ) (c : Client) (st : PollState D)
    (p : Propagated) :
    (handlePolled F now clock i c st p).1.reg.bandwidth =
      match p with
      | .bandwidthEstimate peer bps =>
        if F.pacerLayersDrive then st.reg.bandwidth.recordNativeEstimate peer (.num bps)
        else st.reg.bandwidth
      | _ => st.reg.bandwidth := by
  have hlevel : (st.reg.recordPolledLevel F clock c p).bandwidth = st.reg.bandwidth := by
    obtain ⟨_, h⟩ := recordPolledLevel_eq F clock c st.reg p
    rw [h]
  cases p with
  | bandwidthEstimate peer bps =>
    simp only [handlePolled]
    split_ifs <;> rfl
  | rtcpStats peer stats => rfl
  | timeout t => rfl
  | noop => rfl
  | _ => exact hlevel

/-- One iteration of `poll_all` records a native estimate of the polled client at most. -/
theorem pollStep_bandwidth (i : ℕ) (st : PollState D) (x : Instant × PollResult) :
    (pollStep F now i st x).1.reg.bandwidth = st.reg.bandwidth ∨
      F.pacerLayersDrive = true ∧ ∃ c bps, c ∈ st.reg.clients ∧
        (pollStep F now i st x).1.reg.bandwidth =
          st.reg.bandwidth.recordNativeEstimate c.id (.num bps) := by
  unfold pollStep
  cases hc : st.reg.clients[i]? with
  | none => exact .inl rfl
  | some c =>
    dsimp only
    split_ifs with ha
    · rw [handlePolled_bandwidth]
      have hp := c.pollOutput_polled st.reg.heap st.nextAlloc x.1 x.2
      generalize (c.pollOutput st.reg.heap st.nextAlloc x.1 x.2).2.1 = q at hp ⊢
      cases hp with
      | bandwidthEstimate bps =>
        dsimp only
        split_ifs with hF
        · exact .inr ⟨hF, c, bps, List.mem_of_getElem? hc, rfl⟩
        · exact .inl rfl
      | _ => exact .inl rfl
    · exact .inl rfl

@[simp] theorem pollStep_badges (i : ℕ) (st : PollState D) (x : Instant × PollResult) :
    (pollStep F now i st x).1.reg.badges = st.reg.badges := by
  unfold pollStep
  cases hc : st.reg.clients[i]? with
  | none => rfl
  | some c =>
    dsimp only
    split_ifs with ha
    · generalize hq : c.pollOutput st.reg.heap st.nextAlloc x.1 x.2 = q
      have hbadge : q.1.badge = c.badge := by rw [← hq]; exact pollOutput_badge ..
      have hset : (st.reg.clients.set i q.1).map Client.badge = st.reg.badges :=
        map_set_eq _ _ hc hbadge
      rcases handlePolled_clients F now x.1 i q.1
        { st with reg := { st.reg with clients := st.reg.clients.set i q.1
                                       metrics := st.reg.metrics.calls q.2.2 }
                  nextAlloc := st.nextAlloc + 1 } q.2.1 with h | ⟨-, bps, h⟩
      · rw [badges, h]
        exact hset
      · rw [badges, h, List.set_set]
        apply map_set_eq _ _ hc
        rw [driveReading_badge, hbadge]
    · rfl

theorem pollStep_getElem?_ne {i j : ℕ} (h : j ≠ i) (st : PollState D) (x : Instant × PollResult) :
    (pollStep F now i st x).1.reg.clients[j]? = st.reg.clients[j]? := by
  unfold pollStep
  cases hc : st.reg.clients[i]? with
  | none => rfl
  | some c =>
    dsimp only
    split_ifs with ha
    · generalize c.pollOutput st.reg.heap st.nextAlloc x.1 x.2 = q
      rcases handlePolled_clients F now x.1 i q.1
        { st with reg := { st.reg with clients := st.reg.clients.set i q.1
                                       metrics := st.reg.metrics.calls q.2.2 }
                  nextAlloc := st.nextAlloc + 1 } q.2.1 with hcl | ⟨-, bps, hcl⟩ <;> rw [hcl]
      · exact List.getElem?_set_ne h.symm
      · rw [List.set_set]
        exact List.getElem?_set_ne h.symm
    · rfl

/-- The rule of the poll loop. `R` relates a client to what is left of its feed: an iteration
polls a live client and consumes the first of it. -/
theorem pollClients_feed (feed : Feed) {P : PollState D → Prop}
    {R : Client → List (Instant × PollResult) → Prop}
    (hstep : ∀ i st c x rest, st.reg.clients[i]? = some c → c.isAlive = true → R c (x :: rest) →
      P st → P (pollStep F now i st x).1 ∧
        ∀ c' ∈ (pollStep F now i st x).1.reg.clients[i]?, R c' rest)
    {st : PollState D} (hR : ∀ c ∈ st.reg.clients, R c (feed c.id)) (h : P st) :
    P (pollClients F now feed st) := by
  have hclient : ∀ (i : ℕ) (l : List (Instant × PollResult)) (st : PollState D),
      (∀ c ∈ st.reg.clients[i]?, R c l) → P st → P (pollClient F now i st l) ∧
        ∀ j, j ≠ i → (pollClient F now i st l).reg.clients[j]? = st.reg.clients[j]? := by
    intro i l
    induction l with
    | nil => exact fun st _ hP => ⟨hP, fun _ _ => rfl⟩
    | cons x rest ih =>
      intro st hc hP
      have hnext : P (pollStep F now i st x).1 ∧ ((pollStep F now i st x).2 = false →
          ∀ c' ∈ (pollStep F now i st x).1.reg.clients[i]?, R c' rest) := by
        have hstop : pollStep F now i st x = (st, true) →
            P (pollStep F now i st x).1 ∧ ((pollStep F now i st x).2 = false →
              ∀ c' ∈ (pollStep F now i st x).1.reg.clients[i]?, R c' rest) := by
          intro hs
          rw [hs]
          exact ⟨hP, fun hgo => by cases hgo⟩
        cases hci : st.reg.clients[i]? with
        | none => exact hstop (by simp [pollStep, hci])
        | some c =>
          cases ha : c.isAlive with
          | false => exact hstop (by simp [pollStep, hci, ha])
          | true =>
            obtain ⟨hP', hR'⟩ := hstep i st c x rest hci ha (hc c hci) hP
            exact ⟨hP', fun _ => hR'⟩
      have hothers := fun j hj => pollStep_getElem?_ne F now (i := i) (j := j) hj st x
      unfold pollClient
      generalize hq : pollStep F now i st x = q at hnext hothers
      obtain ⟨st', stop⟩ := q
      cases stop with
      | true => exact ⟨hnext.1, hothers⟩
      | false =>
        obtain ⟨hP', hrest⟩ := ih st' (hnext.2 rfl) hnext.1
        exact ⟨hP', fun j hj => (hrest j hj).trans (hothers j hj)⟩
  have hloop : ∀ (positions : List ℕ), positions.Nodup → ∀ st : PollState D,
      (∀ i ∈ positions, ∀ c ∈ st.reg.clients[i]?, R c (feed c.id)) → P st →
      P (positions.foldl (pollAt F now feed) st) := by
    intro positions
    induction positions with
    | nil => exact fun _ st _ hP => hP
    | cons i rest ih =>
      intro hnodup st hfeed hP
      obtain ⟨hi, hrest⟩ := List.nodup_cons.mp hnodup
      have hone : P (pollAt F now feed st i) ∧
          ∀ j, j ≠ i → (pollAt F now feed st i).reg.clients[j]? = st.reg.clients[j]? := by
        unfold pollAt
        cases hc : st.reg.clients[i]? with
        | none => exact ⟨hP, fun _ _ => rfl⟩
        | some c =>
          refine hclient i (feed c.id) st (fun d hd => ?_) hP
          obtain rfl : c = d := Option.some.inj (hc.symm.trans hd)
          exact hfeed i List.mem_cons_self c hc
      refine ih hrest _ (fun j hj c hc => ?_) hone.1
      have hji : j ≠ i := fun he => hi (he ▸ hj)
      rw [hone.2 j hji] at hc
      exact hfeed j (List.mem_cons_of_mem i hj) c hc
  exact hloop _ List.nodup_range st
    (fun i _ c hc => hR c (List.mem_of_getElem? hc)) h

/-- The rule of the poll loop when an iteration only has to know that it consumes what
str0m returns to the polled client. -/
theorem pollClients_invariant (feed : Feed) {P : PollState D → Prop}
    (hstep : ∀ i st c x, st.reg.clients[i]? = some c → c.isAlive = true → x ∈ feed c.id → P st →
      P (pollStep F now i st x).1) {st : PollState D} (h : P st) :
    P (pollClients F now feed st) := by
  refine pollClients_feed F now feed (R := fun c l => ∀ x ∈ l, x ∈ feed c.id)
    (fun i st c x rest hc ha hl hP => ?_) (fun c _ x hx => hx) h
  refine ⟨hstep i st c x hc ha (hl x List.mem_cons_self) hP, fun c' hc' y hy => ?_⟩
  have hid : c'.id = c.id := by
    have hids := congrArg (fun l => l[i]?) (ids_of_badges (pollStep_badges F now i st x))
    simp only [ids, List.getElem?_map, hc, Option.mem_def.mp hc', Option.map_some] at hids
    exact Option.some.inj hids
  rw [hid]
  exact hl y (List.mem_cons_of_mem x hy)

@[simp] theorem pollClients_badges (feed : Feed) (st : PollState D) :
    (pollClients F now feed st).reg.badges = st.reg.badges :=
  pollClients_invariant F now feed (P := fun s => s.reg.badges = st.reg.badges)
    (fun i s _ x _ _ _ hs => (pollStep_badges F now i s x).trans hs) rfl

theorem pollAll_of_pollClients (feed : Feed) {P : PollState D → Prop}
    (hfeed : ∀ st a s, P st → P { st with reg := st.reg.feedGoogcc a s })
    {r : Registry D} {nextAlloc : WeakTrack}
    (h : P (pollClients F now feed ⟨r, nextAlloc, now + fromMillis 100, none⟩)) :
    P (r.pollAll F now feed nextAlloc) := by
  unfold pollAll
  dsimp only
  split
  · exact hfeed _ _ _ h
  · exact h

theorem pollAll_invariant (feed : Feed) {P : PollState D → Prop}
    (hstep : ∀ i st c x, st.reg.clients[i]? = some c → c.isAlive = true → x ∈ feed c.id → P st →
      P (pollStep F now i st x).1)
    (hfeed : ∀ st a s, P st → P { st with reg := st.reg.feedGoogcc a s })
    {r : Registry D} {nextAlloc : WeakTrack}
    (h : P ⟨r, nextAlloc, now + fromMillis 100, none⟩) :
    P (r.pollAll F now feed nextAlloc) :=
  pollAll_of_pollClients F now feed hfeed (pollClients_invariant F now feed hstep h)

@[simp] theorem pollAll_badges (feed : Feed) (nextAlloc : WeakTrack) (r : Registry D) :
    (r.pollAll F now feed nextAlloc).reg.badges = r.badges :=
  pollAll_invariant F now feed (P := fun st => st.reg.badges = r.badges)
    (fun i st _ x _ _ _ hst => (pollStep_badges F now i st x).trans hst)
    (fun _ _ _ hst => hst) rfl

end Poll
end Registry

namespace Process
variable {D : Type*}

/-- An update of one client leaves alone what it leaves alone of every client. -/
theorem onClient_map {α : Type*} {g : Client → α} (p : Process D) (id : ClientId)
    {f : Client → Client} (hf : ∀ c, g (f c) = g c) :
    (p.onClient id f).reg.clients.map g = p.reg.clients.map g := by
  simp only [onClient, updateClient, List.map_map]
  apply List.map_congr_left
  intro c _
  simp only [Function.comp_apply]
  split_ifs
  · exact hf c
  · rfl

theorem metricsCalls_reg (p : Process D) (handle : MetricsHandle) (calls : List MetricCall) :
    ∃ metrics, (p.metricsCalls handle calls).reg = { p.reg with metrics } := by
  cases handle <;> exact ⟨_, rfl⟩

/-- Such a call enqueues notices, and nothing else shows outside the detector and the metrics. -/
theorem step_notice [ActiveSpeakerDetector D] (F : Features) (p : Process D) {op : Op}
    (hop : op.isNotice = true) : ∃ detector metrics notices,
      (∀ e ∈ notices, e.isNotice = true) ∧
      p.step F op = { p with reg := { p.reg with
        detector, metrics, toPropagate := p.reg.toPropagate ++ notices } } := by
  have hquiet (detector : D) (metrics : SfuMetrics) : ∃ detector' metrics' notices,
      (∀ e ∈ notices, e.isNotice = true) ∧
      { p with reg := { p.reg with detector, metrics } } = { p with reg := { p.reg with
        detector := detector', metrics := metrics'
        toPropagate := p.reg.toPropagate ++ notices } } :=
    ⟨detector, metrics, [], by simp, by simp⟩
  cases op with
  | emitPublisherLayerHints =>
    refine ⟨p.reg.detector, p.reg.metrics, _, fun e he => ?_, rfl⟩
    obtain ⟨x, -, rfl⟩ := List.mem_map.mp he
    split_ifs <;> rfl
  | clientBudgetHint subscriber bps =>
    exact ⟨p.reg.detector, p.reg.metrics, [.clientBudgetHint subscriber bps],
      by simp [Propagated.isNotice], rfl⟩
  | recordAudioLevel peerId levelRaw now =>
    simp only [step, Registry.recordAudioLevel]
    split_ifs <;> exact hquiet _ _
  | tickActiveSpeaker now =>
    simp only [step, Registry.tickActiveSpeaker]
    split_ifs
    · split
      · exact ⟨_, _, [.activeSpeakerChanged _ _], by simp [Propagated.isNotice], rfl⟩
      · exact hquiet _ _
    · exact hquiet _ _
  | tickSpeakerScores =>
    simp only [step]
    split_ifs <;> exact hquiet _ _
  | _ => cases hop

end Process
end SfuKit
