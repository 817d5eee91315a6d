import SfuKit.Forwarding.KeyframeGap
import SfuKit.Forwarding.ExactlyOnce
import SfuKit.Pacer.AudioOnly

/-! # PLIs written and PLIs counted

What the client's handlers write and count of PLIs, and what the drain loop makes of the
requests in its queue: it writes those whose publisher takes them, and counts nothing.
-/
namespace SfuKit

open Library

def SfuMetrics.rtcpPliTotal (m : SfuMetrics) (direction : Direction) : ℕ :=
  m.increments.count (.rtcpPli direction)

/-- The calls leave both PLI counters alone. -/
def Uncounted (l : List MetricCall) : Prop := ∀ direction, .inc (.rtcpPli direction) ∉ l

theorem SfuMetrics.rtcpPliTotal_calls (m : SfuMetrics) (direction : Direction)
    (l : List MetricCall) : (m.calls l).rtcpPliTotal direction =
      m.rtcpPliTotal direction + l.count (.inc (.rtcpPli direction)) := by
  induction l generalizing m with
  | nil => rfl
  | cons x l ih =>
    have hcons : m.calls (x :: l) = (m.call x).calls l := rfl
    rw [hcons, ih, List.count_cons]
    cases x with
    | inc k =>
      have hinc : (m.call (.inc k)).rtcpPliTotal direction = m.rtcpPliTotal direction +
          if MetricCall.inc k == .inc (.rtcpPli direction) then 1 else 0 := by
        simp [SfuMetrics.call, rtcpPliTotal, List.count_cons]
      rw [hinc]
      omega
    | withLabelValues s peerId =>
      have hseries : (m.call (.withLabelValues s peerId)).rtcpPliTotal direction =
          m.rtcpPliTotal direction := by
        simp only [SfuMetrics.call]
        split_ifs <;> rfl
      rw [hseries]
      rfl
    | _ => rfl

theorem Uncounted.rtcpPliTotal_calls {l : List MetricCall} (h : Uncounted l) (m : SfuMetrics)
    (direction : Direction) : (m.calls l).rtcpPliTotal direction = m.rtcpPliTotal direction := by
  rw [SfuMetrics.rtcpPliTotal_calls, List.count_eq_zero.mpr (h direction), add_zero]

theorem Uncounted.flatMap {α : Type*} {l : List α} {f : α → List MetricCall}
    (h : ∀ a ∈ l, Uncounted (f a)) : Uncounted (l.flatMap f) := by
  intro direction hmem
  obtain ⟨a, ha, hfa⟩ := List.mem_flatMap.mp hmem
  exact h a ha direction hfa

/-- The event is a PLI that the fanout has this client write. -/
def Propagated.relaysPli (p : Propagated) (c : Client) : Bool :=
  match p with
  | .keyframeRequest origin req source midIn =>
    decide (req.kind = .pli ∧ c.id ≠ origin ∧ source = c.id) && c.takesRequests midIn
  | _ => false

theorem Propagated.relaysPli_congr (p : Propagated) {c c' : Client} (hid : c'.id = c.id)
    (ht : c'.tracksIn = c.tracksIn) (hw : c'.rtc.writers = c.rtc.writers) :
    p.relaysPli c' = p.relaysPli c := by
  cases p <;> simp only [relaysPli, Client.takesRequests, Rtc.writer, hid, ht, hw]

namespace Client
variable (c : Client) (heap : List ArcTrack) (addr : WeakTrack) (now : Instant)

def pliCalls : ℕ := c.rtc.keyframeCalls.countP fun call => call.kind = .pli

/-- The poll returns a PLI for an entry with a live track. -/
def resolvesPli : PollResult → Bool
  | some (.event (.keyframeRequest req)) =>
    c.isAlive && decide (req.kind = .pli) &&
      ((c.tracksOut.find? fun t => t.mid = some req.mid).bind fun o =>
        upgrade heap o.trackIn).isSome
  | _ => false

/-- A poll writes no PLI: the requests for gaps are FIRs. -/
theorem pollOutput_pliCalls (x : PollResult) :
    (c.pollOutput heap addr now x).1.pliCalls = c.pliCalls := by
  unfold pollOutput
  split
  · rcases x with - | - | t | e
    · rfl
    · rfl
    · rfl
    · cases e with
      | mediaData data =>
        obtain ⟨_, hclient⟩ := c.trackInMedia_client now data
        simp only [handleEvent, hclient, pliCalls, requestKeyframeThrottled_client]
        split_ifs
        · rfl
        · simp
        · rfl
      | _ => rfl
  · rfl

/-- A poll counts a PLI if it resolves, as an incoming one, and nothing else. -/
theorem pollOutput_count (x : PollResult) (direction : Direction) :
    (c.pollOutput heap addr now x).2.2.count (.inc (.rtcpPli direction)) =
      if direction = .inbound ∧ c.resolvesPli heap x = true then 1 else 0 := by
  have hgap : ∀ mid rid, (c.requestKeyframeThrottled now mid rid .fir).2 = [] := by
    intro mid rid
    unfold requestKeyframeThrottled
    repeat' split
    all_goals first | rfl | contradiction
  unfold pollOutput
  cases ha : c.isAlive with
  | false =>
    have hdead : c.resolvesPli heap x = false := by
      unfold resolvesPli
      split <;> simp [ha]
    simp [hdead]
  | true =>
    rw [if_pos rfl]
    rcases x with - | - | t | e
    · simp [resolvesPli]
    · simp [resolvesPli]
    · simp [resolvesPli]
    · cases e with
      | mediaData data =>
        simp only [handleEvent, trackInMedia]
        cases data.contiguous <;> simp [resolvesPli, hgap]
      | keyframeRequest req =>
        simp only [handleEvent, incomingKeyframeReq, resolvesPli, ha]
        cases c.tracksOut.find? fun t => t.mid = some req.mid with
        | none => simp
        | some o =>
          cases hu : upgrade heap o.trackIn with
          | none => simp [hu]
          | some t =>
            -- The calls do not depend on where the track comes from.
            simp only [hu, apply_ite Prod.snd, ite_self]
            cases hk : req.kind <;> cases direction <;> simp [hu]
      | _ => simp [handleEvent, resolvesPli]

theorem writeOut_rtc (origin : ClientId) (data : SfuMediaPayload) :
    ∃ alive written, (c.writeOut heap origin data).rtc = { c.rtc with alive, written } := by
  unfold writeOut
  split
  · exact ⟨_, _, rfl⟩
  · dsimp only
    split_ifs
    all_goals
      split
      · exact ⟨_, _, rfl⟩
      · split_ifs <;> exact ⟨_, _, rfl⟩

theorem handleMediaDataOut_requests (origin : ClientId) (data : SfuMediaPayload) :
    (c.handleMediaDataOut heap origin data).1.rtc.writers = c.rtc.writers ∧
      (c.handleMediaDataOut heap origin data).1.pliCalls = c.pliCalls := by
  rw [pliCalls, handleMediaDataOut_rtc]
  split_ifs
  · obtain ⟨_, _, h⟩ := c.writeOut_rtc heap origin data
    rw [h]
    exact ⟨rfl, rfl⟩
  · exact ⟨rfl, rfl⟩

theorem handleMediaDataOut_uncounted (origin : ClientId) (data : SfuMediaPayload) :
    Uncounted (c.handleMediaDataOut heap origin data).2 := by
  intro direction
  unfold handleMediaDataOut
  split_ifs
  · simp
  · dsimp only [countForwarded]
    split_ifs <;> split <;> simp
  · simp
  · simp

end Client

section Client
variable (c : Client) (now : Instant)

theorem fanoutClient_uncounted (heap : List ArcTrack) (p : Propagated) :
    Uncounted (fanoutClient heap now p c).2.1 := by
  have hnil : Uncounted [] := fun _ => List.not_mem_nil
  cases p with
  | mediaData origin data =>
    simp only [fanoutClient]
    split_ifs
    · exact hnil
    · exact c.handleMediaDataOut_uncounted heap origin data
  | keyframeRequest | trackOpen | activeSpeakerChanged =>
    simp only [fanoutClient]
    split_ifs <;> exact hnil
  | _ => exact hnil

theorem fanoutClient_pliCalls (heap : List ArcTrack) (p : Propagated) :
    (fanoutClient heap now p c).1.pliCalls = c.pliCalls + if p.relaysPli c then 1 else 0 := by
  cases p with
  | mediaData origin data =>
    simp only [fanoutClient, Propagated.relaysPli, Bool.false_eq_true, if_false, add_zero]
    split_ifs
    · rfl
    · exact (c.handleMediaDataOut_requests heap origin data).2
  | keyframeRequest origin req source midIn =>
    simp only [fanoutClient, Propagated.relaysPli, Client.handleKeyframeRequest_eq]
    by_cases hto : c.id ≠ origin ∧ source = c.id
    · by_cases hmid : c.takesRequests midIn = true
      · rw [if_pos hto, if_pos hmid]
        simp [Client.pliCalls, List.countP_cons, hto, hmid]
      · rw [if_pos hto, if_neg hmid]
        simp [hmid]
    · rw [if_neg hto]
      simp [hto]
  | trackOpen origin w =>
    simp only [fanoutClient, Propagated.relaysPli, Bool.false_eq_true, if_false, add_zero]
    split_ifs <;> rfl
  | activeSpeakerChanged peer conf =>
    simp only [fanoutClient, Propagated.relaysPli, Bool.false_eq_true, if_false, add_zero]
    split_ifs <;> rfl
  | _ => rfl

/-- The fanout of one event does not change whom another one is relayed to. -/
theorem fanoutClient_relaysPli (heap : List ArcTrack) (p q : Propagated) :
    q.relaysPli (fanoutClient heap now p c).1 = q.relaysPli c := by
  refine q.relaysPli_congr (congrArg Prod.fst (fanoutClient_badge c now heap p))
    (fanoutClient_tracksIn c now heap p) ?_
  cases p with
  | mediaData origin data =>
    simp only [fanoutClient]
    split_ifs
    · rfl
    · exact (c.handleMediaDataOut_requests heap origin data).1
  | keyframeRequest origin req source midIn =>
    simp only [fanoutClient, Client.handleKeyframeRequest_eq]
    split_ifs <;> rfl
  | trackOpen origin w => simp only [fanoutClient]; split_ifs <;> rfl
  | activeSpeakerChanged peer conf => simp only [fanoutClient]; split_ifs <;> rfl
  | _ => rfl

theorem driveReading_uncounted (bps : ℕ) (signals : Option PerSubscriber) :
    Uncounted (driveReading c now bps signals).calls := by
  intro direction
  simp only [driveReading]
  cases (applyPacerAction (c.drivePacer bps).2 c.id).2 <;> simp

theorem driveSubscriber_uncounted (b : BandwidthEstimator) (origin : ClientId) :
    Uncounted (driveSubscriber b origin now c).calls := by
  intro direction
  unfold driveSubscriber
  rw [pacerTickReady_eq]
  split_ifs
  · simp [Driven.skip]
  · split
    · simp [Driven.skip]
    · simp only [List.mem_cons, reduceCtorEq, false_or]
      exact driveReading_uncounted _ now _ _ direction
  · split <;> simp [Driven.skip]

theorem driveReading_rtc (bps : ℕ) (signals : Option PerSubscriber) :
    (driveReading c now bps signals).client.rtc = c.rtc := by
  obtain ⟨_, _, h⟩ := driveReading_client c now bps signals
  rw [h]

theorem driveSubscriber_rtc (b : BandwidthEstimator) (origin : ClientId) :
    (driveSubscriber b origin now c).client.rtc = c.rtc := by
  rcases driveSubscriber_cases c now b origin with ⟨h, -, -⟩ | ⟨sub, -, -, -, h, -, -⟩
  · rw [h]
  · rw [h, driveReading_rtc]

end Client

def pliCalls (l : List Client) : ℕ := (l.map Client.pliCalls).sum

/-- The PLIs that the fanout of these events has these clients write. -/
def relayedPlis (l : List Client) (q : List Propagated) : ℕ :=
  (q.map fun p => l.countP p.relaysPli).sum

@[simp] theorem pliCalls_nil : pliCalls [] = 0 := rfl

@[simp] theorem pliCalls_cons (c : Client) (l : List Client) :
    pliCalls (c :: l) = c.pliCalls + pliCalls l := by
  simp [pliCalls]

@[simp] theorem pliCalls_append (l m : List Client) :
    pliCalls (l ++ m) = pliCalls l + pliCalls m := by
  simp [pliCalls]

theorem pliCalls_map {l : List Client} {f : Client → Client} {b : Client → Bool}
    (h : ∀ c, (f c).pliCalls = c.pliCalls + if b c then 1 else 0) :
    pliCalls (l.map f) = pliCalls l + l.countP b := by
  induction l with
  | nil => rfl
  | cons c l ih =>
    rw [List.map_cons, pliCalls_cons, pliCalls_cons, ih, h, List.countP_cons]
    omega

theorem pliCalls_map_same (l : List Client) {f : Client → Client}
    (h : ∀ c, (f c).pliCalls = c.pliCalls) : pliCalls (l.map f) = pliCalls l := by
  simp only [pliCalls, List.map_map, Function.comp_def, h]

theorem relayedPlis_map (l : List Client) (q : List Propagated) {f : Client → Client}
    (h : ∀ c, ∀ p : Propagated, p.relaysPli (f c) = p.relaysPli c) :
    relayedPlis (l.map f) q = relayedPlis l q := by
  simp only [relayedPlis, List.countP_map, Function.comp_def, h]

theorem relayedPlis_eq_zero_iff (l : List Client) (q : List Propagated) :
    relayedPlis l q = 0 ↔ ∀ p ∈ q, ∀ c ∈ l, p.relaysPli c = false := by
  simp [relayedPlis, List.sum_eq_zero_iff, List.countP_eq_zero]

theorem relayedPlis_of_isMode (l : List Client) {q : List Propagated}
    (h : ∀ e ∈ q, e.isMode = true) : relayedPlis l q = 0 := by
  rw [relayedPlis_eq_zero_iff]
  intro e he c _
  have hmode := h e he
  cases e <;> simp [Propagated.isMode] at hmode <;> rfl

namespace Registry
variable {D : Type*} (F : Features) (now : Instant)

theorem updatePacerLayers_pliCalls (r : Registry D) (origin : ClientId) :
    pliCalls (r.updatePacerLayers origin now).clients = pliCalls r.clients := by
  rw [updatePacerLayers_clients]
  refine pliCalls_map_same r.clients fun c => ?_
  rw [Client.pliCalls, driveSubscriber_rtc]
  rfl

theorem updatePacerLayers_relayedPlis (r : Registry D) (origin : ClientId) (q : List Propagated) :
    relayedPlis (r.updatePacerLayers origin now).clients q = relayedPlis r.clients q := by
  rw [updatePacerLayers_clients]
  refine relayedPlis_map r.clients q fun c p => p.relaysPli_congr ?_ ?_ ?_
  · exact congrArg Prod.fst (driveSubscriber_badge c now r.bandwidth origin)
  · exact driveSubscriber_tracksIn c now r.bandwidth origin
  · rw [driveSubscriber_rtc]

theorem updatePacerLayers_rtcpPliTotal (r : Registry D) (origin : ClientId)
    (direction : Direction) : (r.updatePacerLayers origin now).metrics.rtcpPliTotal direction =
      r.metrics.rtcpPliTotal direction := by
  refine Uncounted.rtcpPliTotal_calls (.flatMap fun d hd => ?_) r.metrics direction
  obtain ⟨c, -, rfl⟩ := List.mem_map.mp hd
  exact driveSubscriber_uncounted c now r.bandwidth origin

/-- What an event does: it writes the PLIs it relays, whoever else is relayed to stays the
same, and nothing is counted. -/
structure Relays (p : Propagated) (r r' : Registry D) : Prop where
  pliCalls : pliCalls r'.clients = pliCalls r.clients + r.clients.countP p.relaysPli
  relayed : ∀ q, relayedPlis r'.clients q = relayedPlis r.clients q
  total : ∀ direction, r'.metrics.rtcpPliTotal direction = r.metrics.rtcpPliTotal direction

theorem fanout_relays (r : Registry D) (p : Propagated) : Relays p r (r.fanout now p) where
  pliCalls := pliCalls_map fun c => fanoutClient_pliCalls c now r.heap p
  relayed q := relayedPlis_map r.clients q fun c p' => fanoutClient_relaysPli c now r.heap p p'
  total direction := by
    refine Uncounted.rtcpPliTotal_calls (.flatMap fun c _ => ?_) r.metrics direction
    exact fanoutClient_uncounted c now r.heap p

theorem fanoutEvent_relays (r : Registry D) (p : Propagated) :
    Relays p r (r.fanoutEvent F now p) := by
  have hnone : ∀ p : Propagated, (∀ c, p.relaysPli c = false) → ∀ l : List Client,
      l.countP p.relaysPli = 0 := by
    intro p hp l
    exact List.countP_eq_zero.mpr fun c _ => by simp [hp c]
  cases p with
  | mediaData origin data =>
    simp only [fanoutEvent]
    split_ifs
    · have h := fanout_relays now (r.updatePacerLayers origin now) (.mediaData origin data)
      refine ⟨h.pliCalls.trans ?_, fun q => (h.relayed q).trans ?_, fun d => (h.total d).trans ?_⟩
      · rw [updatePacerLayers_pliCalls, hnone _ fun _ => rfl, hnone _ fun _ => rfl]
      · exact updatePacerLayers_relayedPlis now r origin q
      · exact updatePacerLayers_rtcpPliTotal now r origin d
    · exact fanout_relays now r _
  | clientBudgetHint peer bps =>
    simp only [fanoutEvent]
    split_ifs
    · refine ⟨?_, fun _ => rfl, fun _ => rfl⟩
      rw [hnone _ fun _ => rfl]
      rfl
    · exact fanout_relays now r _
  | _ => exact fanout_relays now r _

/-- The PLIs written and those that the queue still makes its clients write, with what the
counters show. -/
def pliAccount (r : Registry D) : ℕ × (Direction → ℕ) :=
  (pliCalls r.clients + relayedPlis r.clients r.toPropagate, r.metrics.rtcpPliTotal)

theorem fanoutStep_pliAccount (r : Registry D) :
    (r.fanoutStep F now).pliAccount = r.pliAccount := by
  unfold fanoutStep
  cases hq : r.toPropagate with
  | nil => rfl
  | cons p rest =>
    dsimp only
    obtain ⟨evs, hevs, -, hmode⟩ := fanoutEvent_queue F now { r with toPropagate := rest } p
    have h := fanoutEvent_relays F now { r with toPropagate := rest } p
    have hsplit : ∀ (l : List Client) (q q' : List Propagated),
        relayedPlis l (q ++ q') = relayedPlis l q + relayedPlis l q' := by
      simp [relayedPlis]
    have hpay : relayedPlis r.clients r.toPropagate =
        r.clients.countP p.relaysPli + relayedPlis r.clients rest := by
      simp [relayedPlis, hq]
    refine Prod.ext ?_ (funext h.total)
    dsimp only [pliAccount]
    rw [hevs, hsplit, relayedPlis_of_isMode _ hmode, h.relayed, h.pliCalls, hpay]
    dsimp only
    omega

/-- The drain loop writes the PLIs that its queue relays, and counts nothing. -/
theorem fanoutPending_pliAccount (r : Registry D) :
    pliCalls (r.fanoutPending F now).clients =
        pliCalls r.clients + relayedPlis r.clients r.toPropagate ∧
      ∀ direction, (r.fanoutPending F now).metrics.rtcpPliTotal direction =
        r.metrics.rtcpPliTotal direction := by
  have h : (r.fanoutPending F now).pliAccount = r.pliAccount :=
    fanoutPending_invariant F now (P := fun s => s.pliAccount = r.pliAccount)
      (fun s hs => (fanoutStep_pliAccount F now s).trans hs) rfl
  obtain ⟨hcalls, htotal⟩ := Prod.mk.inj h
  rw [fanoutPending_toPropagate] at hcalls
  exact ⟨hcalls, congrFun htotal⟩

end Registry
end SfuKit
