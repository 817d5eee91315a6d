import SfuKit.Forwarding.ExactlyOnce
import SfuKit.Forwarding.PliRelay
import SfuKit.Model.Server

/-! # What a poll of the room takes

The results that `poll_all` takes from str0m are known from what each live client would return:
they go up to its first timeout or to what disconnects it. The deadline, the outboxes and the
packets that enter the queue are folds over them.
-/
namespace SfuKit

open Library Polling

def Output.disconnects : PollResult → Bool
  | none | some (.event .iceDisconnected) => true
  | _ => false

namespace Client
variable (c : Client) (heap : List ArcTrack) (addr : WeakTrack) (now : Instant)

theorem pollOutput_isAlive (ha : c.isAlive = true) (x : PollResult) :
    (c.pollOutput heap addr now x).1.isAlive = !Output.disconnects x := by
  unfold pollOutput
  rw [if_pos ha]
  rcases x with - | - | t | e
  · rfl
  · exact ha
  · exact ha
  · cases e with
    | iceDisconnected => rfl
    | mediaData data =>
      obtain ⟨_, _, _, h, -⟩ := c.trackInMedia_eq now data
      simp only [handleEvent, h]
      exact ha
    | _ => exact ha

theorem pollOutput_timeout_iff (ha : c.isAlive = true) (x : PollResult) (t : Instant) :
    (c.pollOutput heap addr now x).2.1 = .timeout t ↔ x = some (.timeout t) := by
  unfold pollOutput
  rw [if_pos ha]
  rcases x with - | - | t' | e
  · simp
  · simp
  · simp
  · cases e with
    | keyframeRequest req =>
      rcases c.incomingKeyframeReq_cases heap req with h | ⟨_, _, _, _, h⟩
      · simp [handleEvent, h]
      · simp only [handleEvent, h]
        split_ifs <;> simp
    | _ => simp [handleEvent, trackInAdded, propagateBwe, propagatePeerStats]

theorem pollOutput_packets (ha : c.isAlive = true) (x : PollResult) :
    packets [(c.pollOutput heap addr now x).2.1] =
      match x with
      | some (.event (.mediaData data)) => [(c.id, .fromStr0m data)]
      | _ => [] := by
  unfold pollOutput
  rw [if_pos ha]
  rcases x with - | - | t | e
  · rfl
  · rfl
  · rfl
  · cases e with
    | mediaData data => simp [handleEvent, packets]
    | keyframeRequest req =>
      rcases c.incomingKeyframeReq_cases heap req with h | ⟨_, _, _, _, h⟩
      · simp [handleEvent, h, packets]
      · simp only [handleEvent, h]
        split_ifs <;> rfl
    | _ => rfl

end Client

namespace Registry
variable {D : Type*} [ActiveSpeakerDetector D] (F : Features) (now : Instant)

theorem handlePolled_flag (clock : Instant) (i : ℕ) (c : Client) (st : PollState D)
    (p : Propagated) : (handlePolled F now clock i c st p).2 = true ↔ ∃ t, p = .timeout t := by
  cases p <;> simp [handlePolled]

theorem handlePolled_deadline (clock : Instant) (i : ℕ) (c : Client) (st : PollState D)
    (p : Propagated) : (handlePolled F now clock i c st p).1.deadline =
      match p with
      | .timeout t => min st.deadline t
      | _ => st.deadline := by
  cases p <;> rfl

theorem handlePolled_packets (clock : Instant) (i : ℕ) (c : Client) (st : PollState D)
    (p : Propagated) : packets (handlePolled F now clock i c st p).1.reg.toPropagate =
      packets st.reg.toPropagate ++ packets [p] := by
  rcases handlePolled_queue F now clock i c st p with ⟨h, rfl | ⟨t, rfl⟩⟩ | ⟨modes, h, hmodes⟩
  · rw [h]
    exact (List.append_nil _).symm
  · rw [h]
    exact (List.append_nil _).symm
  · rw [h, packets_append, packets_cons p, packets_of_isMode hmodes, List.append_nil]

section Step
variable {i : ℕ} {st : PollState D} {c : Client} (hc : st.reg.clients[i]? = some c)
  (ha : c.isAlive = true) (x : Instant × PollResult)
include hc ha

theorem pollStep_flag : (pollStep F now i st x).2 = true ↔ ∃ t, x.2 = some (.timeout t) := by
  unfold pollStep
  rw [hc]
  dsimp only
  rw [if_pos ha, handlePolled_flag]
  apply exists_congr
  intro t
  exact c.pollOutput_timeout_iff st.reg.heap st.nextAlloc x.1 ha x.2 t

theorem pollStep_deadline : (pollStep F now i st x).1.deadline =
    match x.2 with
    | some (.timeout t) => min st.deadline t
    | _ => st.deadline := by
  unfold pollStep
  rw [hc]
  dsimp only
  rw [if_pos ha, handlePolled_deadline]
  have htimeout := c.pollOutput_timeout_iff st.reg.heap st.nextAlloc x.1 ha x.2
  split
  · next t ht =>
    rw [(htimeout t).mp ht]
  · next hne =>
    split
    · next t ht => exact absurd ((htimeout t).mpr ht) (hne t)
    · rfl

theorem pollStep_packets : packets (pollStep F now i st x).1.reg.toPropagate =
    packets st.reg.toPropagate ++
      match x.2 with
      | some (.event (.mediaData data)) => [(c.id, .fromStr0m data)]
      | _ => [] := by
  unfold pollStep
  rw [hc]
  dsimp only
  rw [if_pos ha, handlePolled_packets, c.pollOutput_packets _ _ _ ha]

/-- A live client is at its place after a poll, alive unless the result disconnects it. -/
theorem pollStep_polled : ∃ c', (pollStep F now i st x).1.reg.clients[i]? = some c' ∧
    c'.id = c.id ∧ c'.isAlive = !Output.disconnects x.2 := by
  have hlt : i < st.reg.clients.length := (List.getElem?_eq_some_iff.mp hc).choose
  have halive := c.pollOutput_isAlive st.reg.heap st.nextAlloc x.1 ha x.2
  have hbadge := pollOutput_badge c x.1 st.reg.heap st.nextAlloc x.2
  unfold pollStep
  rw [hc]
  dsimp only
  rw [if_pos ha]
  generalize c.pollOutput st.reg.heap st.nextAlloc x.1 x.2 = q at halive hbadge
  rcases handlePolled_clients F now x.1 i q.1
    { st with reg := { st.reg with clients := st.reg.clients.set i q.1
                                   metrics := st.reg.metrics.calls q.2.2 }
              nextAlloc := st.nextAlloc + 1 } q.2.1 with h | ⟨-, bps, h⟩
  · refine ⟨q.1, ?_, congrArg Prod.fst hbadge, halive⟩
    rw [h]
    exact List.getElem?_set_self hlt
  · refine ⟨(driveReading q.1 x.1 bps none).client, ?_, ?_, ?_⟩
    · rw [h, List.set_set]
      exact List.getElem?_set_self hlt
    · exact congrArg Prod.fst ((driveReading_badge q.1 x.1 bps none).trans hbadge)
    · rw [Client.isAlive, driveReading_rtc]
      exact halive

end Step
end Registry

theorem endsPolling_iff (x : PollResult) :
    endsPolling x = true ↔ (∃ t, x = some (.timeout t)) ∨ Output.disconnects x = true := by
  rcases x with - | - | t | e
  · simp [endsPolling, Output.disconnects]
  · simp [endsPolling, Output.disconnects]
  · simp [endsPolling]
  · cases e <;> simp [endsPolling, Output.disconnects]

/-- A result as a poll with some datagram in it. -/
def Output.net : Output → NetOutput
  | .transmit => .transmit ⟨.udp, ⟨0, 0⟩, ⟨0, 0⟩, []⟩
  | .timeout t => .timeout t
  | .event e => .event e

def Feed.net (feed : Feed) : NetFeed := fun id => (feed id).map fun x => (x.1, x.2.map Output.net)

@[simp] theorem Feed.net_feed (feed : Feed) : feed.net.feed = feed := by
  funext id
  rw [NetFeed.feed, net, List.map_map]
  convert List.map_id (feed id) using 1
  apply List.map_congr_left
  rintro ⟨clock, - | - | t | e⟩ _ <;> rfl

namespace NetPoll
variable {D : Type*} [ActiveSpeakerDetector D] (F : Features) (now : Instant)

theorem step_poll (i : ℕ) (st : NetPoll D) (x : Instant × NetResult) :
    (step F now i st x).1.poll = (Registry.pollStep F now i st.poll (x.1, x.2.result)).1 ∧
      (step F now i st x).2 = (Registry.pollStep F now i st.poll (x.1, x.2.result)).2 := by
  unfold step
  cases hc : st.poll.reg.clients[i]? with
  | none => simp [Registry.pollStep, hc]
  | some c => cases ha : c.isAlive <;> simp [Registry.pollStep, hc, ha]

theorem drain_poll (i : ℕ) (st : NetPoll D) (l : List (Instant × NetResult)) :
    (drain (step F now i) st l).poll =
      Registry.pollClient F now i st.poll (l.map fun x => (x.1, x.2.result)) := by
  induction l generalizing st with
  | nil => rfl
  | cons x rest ih =>
    obtain ⟨hpoll, hflag⟩ := step_poll F now i st x
    rw [List.map_cons]
    unfold drain Registry.pollClient
    generalize step F now i st x = q at hpoll hflag
    generalize Registry.pollStep F now i st.poll (x.1, x.2.result) = q' at hpoll hflag
    obtain ⟨st', ended⟩ := q
    obtain ⟨poll', ended'⟩ := q'
    dsimp only at hpoll hflag
    subst hpoll hflag
    cases ended with
    | true => rfl
    | false => exact ih st'

/-- The loops of `poll_all` do to the room what they do without the outboxes. -/
theorem round_poll (feed : NetFeed) (st : NetPoll D) :
    ((loop F now).round feed st).poll = Registry.pollClients F now feed.feed st.poll := by
  have hturn : ∀ (st : NetPoll D) i, ((loop F now).turn feed st i).poll =
      Registry.pollAt F now feed.feed st.poll i := by
    intro st i
    unfold Loop.turn Registry.pollAt
    cases hc : st.poll.reg.clients[i]? with
    | none => simp [loop, hc]
    | some c =>
      simp only [loop, hc]
      exact drain_poll F now i st (feed c.id)
  have hfold : ∀ (positions : List ℕ) (st : NetPoll D),
      (positions.foldl ((loop F now).turn feed) st).poll =
        positions.foldl (Registry.pollAt F now feed.feed) st.poll := by
    intro positions
    induction positions with
    | nil => exact fun _ => rfl
    | cons i rest ih =>
      intro st
      rw [List.foldl_cons, List.foldl_cons, ih, hturn]
  exact hfold _ st

theorem loop_turnwise : (loop F now : Loop (NetPoll D) _ _ _).Turnwise where
  idle i st x h := by
    change step F now i st x = (st, true)
    unfold step
    cases hc : st.poll.reg.clients[i]? with
    | none => rfl
    | some c =>
      have hdead : c.isAlive = false := h c hc
      simp [hdead]
  others i j st x hj := by
    change (step F now i st x).1.poll.reg.clients[j]? = _
    rw [(step_poll F now i st x).1]
    exact Registry.pollStep_getElem?_ne F now hj st.poll _
  last i st x c hc ha he := by
    obtain ⟨hpoll, hflag⟩ := step_poll F now i st x
    obtain ⟨c', hc', -, halive⟩ :=
      Registry.pollStep_polled F now hc ha (x.1, x.2.result)
    rcases (endsPolling_iff _).mp he with ht | hd
    · exact .inl (hflag.trans ((Registry.pollStep_flag F now hc ha _).mpr ht))
    · refine .inr fun b hb => ?_
      change b ∈ (step F now i st x).1.poll.reg.clients[i]? at hb
      rw [hpoll, hc'] at hb
      cases hb
      exact halive.trans (by rw [hd]; rfl)
  more i st x c hc ha he := by
    obtain ⟨hpoll, hflag⟩ := step_poll F now i st x
    obtain ⟨c', hc', hid, halive⟩ :=
      Registry.pollStep_polled F now hc ha (x.1, x.2.result)
    have hends : ¬ ((∃ t, x.2.result = some (.timeout t)) ∨
        Output.disconnects x.2.result = true) := by
      rw [← endsPolling_iff]
      exact Bool.eq_false_iff.mp he
    refine ⟨?_, c', ?_, ?_, hid⟩
    · apply Bool.eq_false_iff.mpr
      intro h
      exact hends (.inl ((Registry.pollStep_flag F now hc ha _).mp (hflag.symm.trans h)))
    · change (step F now i st x).1.poll.reg.clients[i]? = some c'
      rw [hpoll, hc']
    · rw [Bool.eq_false_iff.mpr fun h => hends (.inr h)] at halive
      exact halive

/-- The results that `poll_all` takes from str0m, each under its client, in order. -/
def trace (feed : NetFeed) (clients : List Client) : List (ClientId × Instant × NetResult) :=
  clients.flatMap fun c =>
    if c.isAlive then (taken (fun x => endsPolling x.2.result) (feed c.id)).map (c.id, ·) else []

theorem round_view {τ : Type*} (view : NetPoll D → τ)
    {absorb : τ → ClientId × Instant × NetResult → τ}
    (hview : ∀ i st x c, st.poll.reg.clients[i]? = some c → c.isAlive = true →
      view (step F now i st x).1 = absorb (view st) (c.id, x)) (feed : NetFeed) (st : NetPoll D) :
    view ((loop F now).round feed st) =
      (trace feed st.poll.reg.clients).foldl absorb (view st) :=
  Loop.round_view (loop_turnwise F now) hview feed st

def timeouts (l : List (ClientId × Instant × NetResult)) : List Instant :=
  l.filterMap fun x =>
    match x.2.2 with
    | some (.timeout t) => some t
    | _ => none

def media (l : List (ClientId × Instant × NetResult)) : List (ClientId × SfuMediaPayload) :=
  l.flatMap fun x =>
    match x.2.2 with
    | some (.event (.mediaData data)) => [(x.1, .fromStr0m data)]
    | _ => []

def transmits (id : ClientId) (l : List (ClientId × Instant × NetResult)) : List Transmit :=
  l.flatMap fun x =>
    match x.2.2 with
    | some (.transmit t) => if x.1 = id then [t] else []
    | _ => []

/-- The deadline is the earliest of the timeouts and what it was. -/
theorem round_deadline (feed : NetFeed) (st : NetPoll D) :
    ((loop F now).round feed st).poll.deadline =
      (timeouts (trace feed st.poll.reg.clients)).foldl min st.poll.deadline := by
  rw [timeouts, List.foldl_filterMap]
  apply round_view F now (fun st => st.poll.deadline)
  intro i st x c hc ha
  rw [(step_poll F now i st x).1, Registry.pollStep_deadline F now hc ha]
  rcases x with ⟨clock, - | t | t | e⟩ <;> rfl

theorem round_append {α : Type*} (view : NetPoll D → List α)
    {read : ClientId × Instant × NetResult → List α}
    (hview : ∀ i st x c, st.poll.reg.clients[i]? = some c → c.isAlive = true →
      view (step F now i st x).1 = view st ++ read (c.id, x)) (feed : NetFeed) (st : NetPoll D) :
    view ((loop F now).round feed st) =
      view st ++ (trace feed st.poll.reg.clients).flatMap read := by
  have hfold : view ((loop F now).round feed st) =
      (trace feed st.poll.reg.clients).foldl (fun l x => l ++ read x) (view st) :=
    round_view F now view hview feed st
  rw [hfold, List.foldl_append_eq_append, List.flatMap_def]

theorem round_packets (feed : NetFeed) (st : NetPoll D) :
    packets ((loop F now).round feed st).poll.reg.toPropagate =
      packets st.poll.reg.toPropagate ++ media (trace feed st.poll.reg.clients) := by
  apply round_append F now (fun st => packets st.poll.reg.toPropagate)
  intro i st x c hc ha
  rw [(step_poll F now i st x).1, Registry.pollStep_packets F now hc ha]
  rcases x with ⟨clock, - | t | t | e⟩ <;> try rfl
  cases e <;> rfl

theorem round_outboxes (feed : NetFeed) (st : NetPoll D) (id : ClientId) :
    ((loop F now).round feed st).pendingOut id =
      st.pendingOut id ++ transmits id (trace feed st.poll.reg.clients) := by
  apply round_append F now (fun st => st.pendingOut id)
  intro i st x c hc ha
  have hstep : (step F now i st x).1.pendingOut = st.pendingOut.queue c.id x.2 := by
    unfold step
    rw [hc]
    dsimp only
    rw [if_pos ha]
  rw [hstep]
  rcases x with ⟨clock, - | t | t | e⟩
  · exact (List.append_nil _).symm
  · by_cases hid : c.id = id
    · simp [Outboxes.queue, hid]
    · simp [Outboxes.queue, hid, Function.update_of_ne (Ne.symm hid)]
  · exact (List.append_nil _).symm
  · exact (List.append_nil _).symm

end NetPoll
end SfuKit
