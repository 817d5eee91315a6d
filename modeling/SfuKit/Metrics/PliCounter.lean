import SfuKit.Forwarding.PliRelay
import SfuKit.Forwarding.KeyframeLayer
import SfuKit.Metrics.Churn
import SfuKit.Tracks.Evolution

/-! # The PLI counter

The counter of incoming PLIs goes up with every request that resolves to a track. That of
outgoing PLIs belongs to the requests for gaps, which are FIRs; the PLIs that go out are
relayed ones, and nothing counts those.
-/
namespace SfuKit

open Library

namespace Registry
variable {D : Type*} (F : Features) (now : Instant)

section Poll
variable [ActiveSpeakerDetector D]

/-- The PLI that an iteration on client `i` polls and that resolves, if there is one. -/
def polledPli (i : ℕ) (st : PollState D) (x : Instant × PollResult) : ℕ :=
  match st.reg.clients[i]? with
  | some c => if c.resolvesPli st.reg.heap x.2 then 1 else 0
  | none => 0

def clientPlis (feed : Feed) (st : PollState D) (i : ℕ) : ℕ :=
  match st.reg.clients[i]? with
  | some c =>
    Run.total (Run.halting (pollStep F now i)) (Run.haltingWeight (polledPli i)) (st, false)
      (feed c.id)
  | none => 0

def resolvedPlis (feed : Feed) (nextAlloc : WeakTrack) (r : Registry D) : ℕ :=
  Run.total (pollAt F now feed) (clientPlis F now feed) ⟨r, nextAlloc, now + fromMillis 100, none⟩
    (List.range r.clients.length)

/-- The inner loop is a loop that its step can end. -/
theorem pollClient_eq_run (i : ℕ) (st : PollState D) (l : List (Instant × PollResult)) :
    pollClient F now i st l = (Run.run (Run.halting (pollStep F now i)) (st, false) l).1 := by
  have hended : ∀ (st : PollState D) l,
      Run.run (Run.halting (pollStep F now i)) (st, true) l = (st, true) := by
    intro st l
    induction l with
    | nil => rfl
    | cons x rest ih => exact ih
  induction l generalizing st with
  | nil => rfl
  | cons x rest ih =>
    have hfirst : Run.halting (pollStep F now i) (st, false) x = pollStep F now i st x := rfl
    rw [Run.run_cons, hfirst]
    unfold pollClient
    obtain ⟨st', ended⟩ := pollStep F now i st x
    cases ended with
    | true => rw [hended]
    | false => exact ih st'

theorem handlePolled_rtcpPliTotal (clock : Instant) (i : ℕ) (c : Client) (st : PollState D)
    (p : Propagated) (direction : Direction) :
    (handlePolled F now clock i c st p).1.reg.metrics.rtcpPliTotal direction =
      st.reg.metrics.rtcpPliTotal direction := by
  obtain ⟨_, hlevel⟩ := recordPolledLevel_eq F clock c st.reg p
  cases p with
  | bandwidthEstimate peerId bps =>
    have hbwe : (st.reg.metrics.call (.withLabelValues .bandwidthEstimateBps peerId.raw)).rtcpPliTotal
        direction = st.reg.metrics.rtcpPliTotal direction := by
      have hlabel : Uncounted [.withLabelValues .bandwidthEstimateBps peerId.raw] := by
        simp [Uncounted]
      exact hlabel.rtcpPliTotal_calls _ direction
    simp only [handlePolled]
    split_ifs
    · exact hbwe
    · exact ((driveReading_uncounted c clock bps none).rtcpPliTotal_calls _ direction).trans hbwe
    · exact hbwe
  | rtcpStats peerId stats =>
    have hrtcp : Uncounted (updatePeerRtcp peerId.raw) := by simp [Uncounted, updatePeerRtcp]
    exact hrtcp.rtcpPliTotal_calls _ direction
  | timeout t => rfl
  | noop => rfl
  | _ =>
    simp only [handlePolled, push, hlevel]

theorem pollStep_plis (i : ℕ) (st : PollState D) (x : Instant × PollResult) :
    (pollStep F now i st x).1.reg.metrics.rtcpPliTotal .inbound =
        st.reg.metrics.rtcpPliTotal .inbound + polledPli i st x ∧
      (pollStep F now i st x).1.reg.metrics.rtcpPliTotal .outbound =
        st.reg.metrics.rtcpPliTotal .outbound ∧
      pliCalls (pollStep F now i st x).1.reg.clients = pliCalls st.reg.clients := by
  unfold pollStep polledPli
  cases hc : st.reg.clients[i]? with
  | none => exact ⟨rfl, rfl, rfl⟩
  | some c =>
    dsimp only
    cases ha : c.isAlive with
    | false =>
      have hdead : c.resolvesPli st.reg.heap x.2 = false := by
        unfold Client.resolvesPli
        split <;> simp [ha]
      rw [hdead]
      exact ⟨rfl, rfl, rfl⟩
    | true =>
      rw [if_pos rfl]
      have hcalls := c.pollOutput_pliCalls st.reg.heap st.nextAlloc x.1 x.2
      have hcount := c.pollOutput_count st.reg.heap st.nextAlloc x.1 x.2
      generalize c.pollOutput st.reg.heap st.nextAlloc x.1 x.2 = q at hcalls hcount
      have htotal := handlePolled_rtcpPliTotal F now x.1 i q.1
        { st with reg := { st.reg with clients := st.reg.clients.set i q.1
                                       metrics := st.reg.metrics.calls q.2.2 }
                  nextAlloc := st.nextAlloc + 1 } q.2.1
      simp only [SfuMetrics.rtcpPliTotal_calls, hcount] at htotal
      refine ⟨?_, ?_, ?_⟩
      · simpa using htotal .inbound
      · simpa using htotal .outbound
      · rcases handlePolled_clients F now x.1 i q.1
          { st with reg := { st.reg with clients := st.reg.clients.set i q.1
                                         metrics := st.reg.metrics.calls q.2.2 }
                    nextAlloc := st.nextAlloc + 1 } q.2.1 with h | ⟨-, bps, h⟩
        · rw [h]
          exact congrArg List.sum (map_set_eq _ _ hc hcalls)
        · rw [h, List.set_set]
          refine congrArg List.sum (map_set_eq _ _ hc ?_)
          rw [Client.pliCalls, driveReading_rtc]
          exact hcalls

theorem pollAt_inbound (feed : Feed) (st : PollState D) (i : ℕ) :
    (pollAt F now feed st i).reg.metrics.rtcpPliTotal .inbound =
      st.reg.metrics.rtcpPliTotal .inbound + clientPlis F now feed st i := by
  unfold pollAt clientPlis
  cases st.reg.clients[i]? with
  | none => rfl
  | some c =>
    dsimp only
    rw [pollClient_eq_run]
    exact Run.telescope_halting (fun st : PollState D => st.reg.metrics.rtcpPliTotal .inbound)
      (fun st x => (pollStep_plis F now i st x).1) (st, false) (feed c.id)

/-- `poll_all` counts the PLIs that resolve, as incoming ones, and writes none. -/
theorem pollAll_plis (feed : Feed) (nextAlloc : WeakTrack) (r : Registry D) :
    (r.pollAll F now feed nextAlloc).reg.metrics.rtcpPliTotal .inbound =
        r.metrics.rtcpPliTotal .inbound + r.resolvedPlis F now feed nextAlloc ∧
      (r.pollAll F now feed nextAlloc).reg.metrics.rtcpPliTotal .outbound =
        r.metrics.rtcpPliTotal .outbound ∧
      pliCalls (r.pollAll F now feed nextAlloc).reg.clients = pliCalls r.clients := by
  refine ⟨?_, ?_⟩
  · let P (st : PollState D) : Prop := st.reg.metrics.rtcpPliTotal .inbound =
      r.metrics.rtcpPliTotal .inbound + r.resolvedPlis F now feed nextAlloc
    have hpolled : P (r.pollAll F now feed nextAlloc) := by
      refine pollAll_of_pollClients F now feed (fun _ _ _ h => h) ?_
      exact Run.telescope (fun st : PollState D => st.reg.metrics.rtcpPliTotal .inbound)
        (pollAt_inbound F now feed) _ _
    exact hpolled
  · let P (st : PollState D) : Prop :=
      st.reg.metrics.rtcpPliTotal .outbound = r.metrics.rtcpPliTotal .outbound ∧
        pliCalls st.reg.clients = pliCalls r.clients
    have hpolled : P (r.pollAll F now feed nextAlloc) := by
      refine pollAll_invariant F now feed (fun i st c x _ _ _ h => ?_) (fun _ _ _ h => h)
        ⟨rfl, rfl⟩
      obtain ⟨-, hout, hcalls⟩ := pollStep_plis F now i st x
      exact ⟨hout.trans h.1, hcalls.trans h.2⟩
    exact hpolled

end Poll
end Registry

/-- A call, or the negotiation that opens an entry towards a subscriber. -/
inductive Turn where
  | call (op : Op)
  | negotiated (id : ClientId) (trackIn : WeakTrack) (mid : SfuMid)

def Turn.broughtPlis : Turn → ℕ
  | .call (.clientNew rtc _) => rtc.keyframeCalls.countP fun call => call.kind = .pli
  | _ => 0

namespace Process
variable {D : Type*}

def departing (p : Process D) : Turn → List Client
  | .call .reapDead => p.reg.clients.filter fun c => !c.isAlive
  | .call (.dropHeld id) => (p.heldAt id).toList.map Prod.snd
  | _ => []

/-- The PLIs that the queue has the connected clients write. -/
def relayedPlis (p : Process D) : Turn → ℕ
  | .call (.fanoutPending _) => SfuKit.relayedPlis p.reg.clients p.reg.toPropagate
  | _ => 0

/-- A PLI is fanned out to a client that writes it. -/
def RelaysPli (p : Process D) : Turn → Prop
  | .call (.fanoutPending _) => ∃ e ∈ p.reg.toPropagate, ∃ c ∈ p.reg.clients, e.relaysPli c = true
  | _ => False

theorem relayedPlis_eq_zero_iff (p : Process D) (t : Turn) :
    p.relayedPlis t = 0 ↔ ¬ p.RelaysPli t := by
  unfold relayedPlis RelaysPli
  split
  · rw [SfuKit.relayedPlis_eq_zero_iff]
    simp
  · simp

variable [ActiveSpeakerDetector D] (F : Features)

def turn (p : Process D) : Turn → Process D
  | .call op => p.step F op
  | .negotiated id trackIn mid => p.onClient id fun c => c.negotiated trackIn mid

/-- The PLIs that are written: those on the connections afterwards, also of the clients that
leave, less those that were there before or came with a new connection. -/
def writtenPlis (p : Process D) (t : Turn) : ℤ :=
  (pliCalls (p.turn F t).clients + pliCalls (p.departing t) : ℕ) -
    (pliCalls p.clients + t.broughtPlis : ℕ)

/-- The PLIs of subscribers that resolve to a live track. The requests of a client that is
still held are for the registry's counters if its handle is the registry's. -/
def resolvedPlis (p : Process D) : Turn → ℕ
  | .call (.heldPoll id _ result) =>
    match p.heldAt id with
    | some (_, c) => if c.metrics = .registry ∧ c.resolvesPli p.reg.heap result = true then 1 else 0
    | none => 0
  | .call (.pollAll now feed) => p.reg.resolvedPlis F now feed p.nextAlloc
  | _ => 0

/-- From `p` to `q`, with that many PLIs on the connections of clients that left and of new
ones, this many were written and this many came in. -/
structure Accounts (p q : Process D) (left brought written received : ℕ) : Prop where
  calls : pliCalls q.clients + left = pliCalls p.clients + brought + written
  outbound : q.reg.metrics.rtcpPliTotal .outbound = p.reg.metrics.rtcpPliTotal .outbound
  inbound : q.reg.metrics.rtcpPliTotal .inbound = p.reg.metrics.rtcpPliTotal .inbound + received

section
omit [ActiveSpeakerDetector D]
variable (p : Process D)

theorem Accounts.same {p q : Process D} (hcalls : pliCalls q.clients = pliCalls p.clients)
    (htotal : ∀ direction, q.reg.metrics.rtcpPliTotal direction =
      p.reg.metrics.rtcpPliTotal direction) : Accounts p q 0 0 0 0 :=
  ⟨hcalls, htotal .outbound, htotal .inbound⟩

theorem metricsCalls_rtcpPliTotal (handle : MetricsHandle) (calls : List MetricCall)
    (direction : Direction) : (p.metricsCalls handle calls).reg.metrics.rtcpPliTotal direction =
      p.reg.metrics.rtcpPliTotal direction +
        if handle = .registry then calls.count (.inc (.rtcpPli direction)) else 0 := by
  cases handle with
  | throwaway => rfl
  | registry => exact SfuMetrics.rtcpPliTotal_calls _ direction calls

theorem onClient_accounts (id : ClientId) {f : Client → Client}
    (hf : ∀ c, (f c).pliCalls = c.pliCalls) : Accounts p (p.onClient id f) 0 0 0 0 := by
  have hone : ∀ c : Client, (if c.id = id then f c else c).pliCalls = c.pliCalls := by
    intro c
    split_ifs
    · exact hf c
    · rfl
  refine .same ?_ fun _ => rfl
  simp only [clients, onClient, updateClient, pliCalls_append, pliCalls_map_same _ hone]

theorem clientNew_accounts (rtc : Rtc) (handle : MetricsHandle) :
    Accounts p (p.clientNew rtc handle) 0 (rtc.keyframeCalls.countP fun call => call.kind = .pli)
      0 0 := by
  have hclients : (p.clientNew rtc handle).clients =
      p.clients ++ [(Client.new ⟨p.idCounter⟩ rtc handle).1] := by
    rw [clients, (p.clientNew_spec rtc handle).1, (p.clientNew_spec rtc handle).2.1, clients,
      List.append_assoc]
  refine ⟨?_, ?_, ?_⟩
  · rw [hclients, pliCalls_append]
    rfl
  · simp [clientNew, metricsCalls_rtcpPliTotal, Client.new]
  · simp [clientNew, metricsCalls_rtcpPliTotal, Client.new]

theorem heldPoll_accounts (F : Features) [ActiveSpeakerDetector D] (id : ClientId)
    (clock : Instant) (result : PollResult) : Accounts p (p.heldPoll id clock result) 0 0 0
      (p.resolvedPlis F (.call (.heldPoll id clock result))) := by
  simp only [heldPoll, resolvedPlis]
  cases hx : p.heldAt id with
  | none => exact .same rfl fun _ => rfl
  | some x =>
    obtain ⟨j, c⟩ := x
    have hcalls := c.pollOutput_pliCalls p.reg.heap p.nextAlloc clock result
    have hcount := c.pollOutput_count p.reg.heap p.nextAlloc clock result
    dsimp only
    generalize c.pollOutput p.reg.heap p.nextAlloc clock result = q at hcalls hcount
    refine ⟨?_, ?_, ?_⟩
    · have hheld : pliCalls (p.held.set j q.1) = pliCalls p.held :=
        congrArg List.sum (map_set_eq _ _ (heldAt_eq_some hx).1 hcalls)
      simp only [clients, metricsCalls_clients, pliCalls_append, hheld]
    · simp [metricsCalls_rtcpPliTotal, hcount]
    · simp only [metricsCalls_rtcpPliTotal, hcount, ite_and, if_true]

theorem pliCalls_held {p : Process D} {id : ClientId} {j : ℕ} {c : Client}
    (h : p.heldAt id = some (j, c)) :
    pliCalls p.held = c.pliCalls + pliCalls (p.held.eraseIdx j) := by
  rw [← pliCalls_cons]
  exact ((heldAt_perm h).map Client.pliCalls).sum_eq

theorem dropHeld_accounts (id : ClientId) :
    Accounts p (p.dropHeld id) (pliCalls (p.departing (.call (.dropHeld id)))) 0 0 0 := by
  simp only [dropHeld, departing]
  cases hx : p.heldAt id with
  | none => exact .same rfl fun _ => rfl
  | some x =>
    obtain ⟨j, c⟩ := x
    refine ⟨?_, rfl, rfl⟩
    simp only [clients, pliCalls_append, pliCalls_held hx, Option.toList_some, List.map_cons,
      List.map_nil, pliCalls_cons, pliCalls_nil]
    omega

end

theorem insert_accounts (p : Process D) (id : ClientId) (now : Instant) :
    Accounts p (p.insert F now id) 0 0 0 0 := by
  simp only [insert]
  cases hx : p.heldAt id with
  | none => exact .same rfl fun _ => rfl
  | some x =>
    obtain ⟨j, c⟩ := x
    have huncounted : Uncounted [.withLabelValues .videoFramesDropped c.id.raw,
        .inc .clientConnect, .incActiveParticipants] := by
      simp [Uncounted]
    refine .same ?_ fun direction => ?_
    · simp only [clients, Registry.insert_clients, pliCalls_append, pliCalls_held hx,
        pliCalls_cons, pliCalls_nil, Client.pliCalls]
      omega
    · simp only [Registry.insert_metrics]
      exact huncounted.rtcpPliTotal_calls _ direction

theorem reapDead_accounts (p : Process D) :
    Accounts p { p with reg := p.reg.reapDead F } (pliCalls (p.departing (.call .reapDead))) 0 0
      0 := by
  have hsplit : pliCalls (p.reg.clients.filter Client.isAlive) +
      pliCalls (p.reg.clients.filter fun c => !c.isAlive) = pliCalls p.reg.clients := by
    rw [← pliCalls_append]
    exact ((List.filter_append_perm Client.isAlive p.reg.clients).map Client.pliCalls).sum_eq
  have htotal : ∀ direction, (p.reg.reapDead F).metrics.rtcpPliTotal direction =
      p.reg.metrics.rtcpPliTotal direction :=
    Uncounted.rtcpPliTotal_calls (.flatMap fun c _ => by simp [Uncounted]) _
  refine ⟨?_, htotal .outbound, htotal .inbound⟩
  simp only [clients, Registry.reapDead, departing, pliCalls_append]
  omega

theorem turn_accounts (p : Process D) (t : Turn) : Accounts p (p.turn F t)
    (pliCalls (p.departing t)) t.broughtPlis (p.relayedPlis t) (p.resolvedPlis F t) := by
  cases t with
  | negotiated id trackIn mid => exact p.onClient_accounts id fun _ => rfl
  | call op =>
    cases op with
    | clientNew rtc handle => exact p.clientNew_accounts rtc handle
    | heldPoll id clock result => exact p.heldPoll_accounts F id clock result
    | dropHeld id => exact p.dropHeld_accounts id
    | insert id now => exact p.insert_accounts F id now
    | reapDead => exact p.reapDead_accounts F
    | setOrigin id origin => exact p.onClient_accounts id fun _ => rfl
    | setDesiredLayer id rid => exact p.onClient_accounts id fun _ => rfl
    | connection id alive writers => exact p.onClient_accounts id fun _ => rfl
    | pollAll now feed =>
      obtain ⟨hin, hout, hcalls⟩ := p.reg.pollAll_plis F now feed p.nextAlloc
      refine ⟨?_, hout, hin⟩
      simp only [clients, turn, step, pollAll, pliCalls_append, hcalls]
      rfl
    | fanoutPending now =>
      obtain ⟨hcalls, htotal⟩ := p.reg.fanoutPending_pliAccount F now
      refine ⟨?_, htotal .outbound, htotal .inbound⟩
      simp only [clients, turn, step, pliCalls_append, hcalls, departing, pliCalls_nil,
        Turn.broughtPlis, relayedPlis]
      omega
    | updatePacerLayers origin now =>
      simp only [turn, step]
      split_ifs
      · refine .same ?_ (p.reg.updatePacerLayers_rtcpPliTotal now origin)
        simp only [clients, pliCalls_append, Registry.updatePacerLayers_pliCalls]
      · exact .same rfl fun _ => rfl
    | recordAudioLevel peerId levelRaw now =>
      simp only [turn, step, Registry.recordAudioLevel]
      split_ifs <;> exact .same rfl fun _ => rfl
    | tickActiveSpeaker now =>
      simp only [turn, step, Registry.tickActiveSpeaker]
      split_ifs
      · split
        · have hchange : Uncounted [.inc .dominantSpeakerChanges] := by simp [Uncounted]
          exact .same rfl (hchange.rtcpPliTotal_calls _)
        · exact .same rfl fun _ => rfl
      · exact .same rfl fun _ => rfl
    | tickSpeakerScores =>
      simp only [turn, step]
      split_ifs
      · refine .same rfl (Uncounted.rtcpPliTotal_calls (.flatMap fun s _ => ?_) _)
        simp [Uncounted, updatePeerSpeakerScores]
      · exact .same rfl fun _ => rfl
    | emitPublisherLayerHints | clientBudgetHint => exact .same rfl fun _ => rfl
    | onTwccFeedback | recordSendTime | recordNativeEstimate | enableGoogcc | googccOnReceive =>
      simp only [turn, step]
      split_ifs <;> exact .same rfl fun _ => rfl

/-- The PLIs that are written are those that are relayed. -/
theorem writtenPlis_eq (p : Process D) (t : Turn) : p.writtenPlis F t = p.relayedPlis t := by
  rw [writtenPlis, (p.turn_accounts F t).calls]
  omega

theorem outbound_run (p : Process D) (turns : List Turn) :
    (Run.run (turn F) p turns).reg.metrics.rtcpPliTotal .outbound =
      p.reg.metrics.rtcpPliTotal .outbound := by
  have hstep : ∀ (q : Process D) t,
      q.reg.metrics.rtcpPliTotal .outbound = p.reg.metrics.rtcpPliTotal .outbound →
      (q.turn F t).reg.metrics.rtcpPliTotal .outbound = p.reg.metrics.rtcpPliTotal .outbound :=
    fun q t hq => (q.turn_accounts F t).outbound.trans hq
  exact Run.invariant_all hstep turns rfl

/-- Over a run the outgoing counter goes up by the PLIs that are written, and the incoming
one by those that resolve. -/
structure CountsPlis (p : Process D) (turns : List Turn) : Prop where
  outbound : ((Run.run (turn F) p turns).reg.metrics.rtcpPliTotal .outbound : ℤ) =
    p.reg.metrics.rtcpPliTotal .outbound + Run.total (turn F) (writtenPlis F) p turns
  inbound : (Run.run (turn F) p turns).reg.metrics.rtcpPliTotal .inbound =
    p.reg.metrics.rtcpPliTotal .inbound + Run.total (turn F) (resolvedPlis F) p turns

/-- The counters are right about a run, from wherever, exactly if no PLI is relayed in it. -/
theorem countsPlis_iff (p : Process D) (turns : List Turn) :
    p.CountsPlis F turns ↔ Run.Along (turn F) (fun p t => ¬ p.RelaysPli t) p turns := by
  have hin : (Run.run (turn F) p turns).reg.metrics.rtcpPliTotal .inbound =
      p.reg.metrics.rtcpPliTotal .inbound + Run.total (turn F) (resolvedPlis F) p turns :=
    Run.telescope (fun p : Process D => p.reg.metrics.rtcpPliTotal .inbound)
      (fun p t => (p.turn_accounts F t).inbound) p turns
  have hwritten : Run.total (turn F) (writtenPlis F) p turns = 0 ↔
      Run.Along (turn F) (fun p t => ¬ p.RelaysPli t) p turns := by
    have hnonneg : ∀ (p : Process D) t, 0 ≤ p.writtenPlis F t := by
      intro p t
      rw [writtenPlis_eq]
      exact Int.natCast_nonneg _
    rw [Run.total_eq_zero_iff hnonneg]
    simp only [writtenPlis_eq, Int.natCast_eq_zero, relayedPlis_eq_zero_iff]
  rw [← hwritten]
  constructor
  · intro h
    have hout := h.outbound
    rw [outbound_run] at hout
    omega
  · intro hnone
    refine ⟨?_, hin⟩
    rw [outbound_run, hnone, add_zero]

/-- Client 1 has an open entry for the track of client 0 and sends a PLI for it, which is
relayed. -/
theorem countsPlis_fails :
    let asking : Feed := fun id =>
      if id = ⟨1⟩ then [(0, some (.event (.keyframeRequest ⟨⟨5⟩, none, .pli⟩)))] else []
    ¬ (start 0 : Process PeerDetector).CountsPlis .full
      [.call (.clientNew .new .throwaway), .call (.clientNew .new .throwaway),
        .call (.insert ⟨0⟩ 0), .call (.insert ⟨1⟩ 0), .call (.connection ⟨0⟩ true [⟨⟨0⟩, [], true⟩]),
        .call (.pollAll 0 (openFirst ⟨0⟩)), .call (.fanoutPending 0), .negotiated ⟨1⟩ 0 ⟨5⟩,
        .call (.pollAll 0 asking), .call (.fanoutPending 0)] := by
  intro asking h
  exact absurd h.outbound (by decide)

end Process
end SfuKit
