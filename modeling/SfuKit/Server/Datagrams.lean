import SfuKit.Server.Refinement

/-! # Every datagram is sent once

What str0m wants to send waits in the outbox of its client until the flush at the end of the
same iteration. So an iteration sends what its polls have queued, client by client and in the
order of each client's polls; only the first finds something left from before.
-/
namespace SfuKit

open Library Polling

def NetResult.transmit : NetResult → List Transmit
  | some (.transmit t) => [t]
  | _ => []

def Client.queued (feed : NetFeed) (c : Client) : List Transmit :=
  (taken (fun x => endsPolling x.2.result) (feed c.id)).flatMap fun x => x.2.transmit

def Transmit.sendCall (t : Transmit) : SendCall := (t.contents, t.destination)

theorem emptied_apply (l : List Client) (out : Outboxes) (id : ClientId) :
    l.foldl (fun out c => out.clear c.id) out id =
      if id ∈ l.map (·.id) then [] else out id := by
  induction l generalizing out with
  | nil => rfl
  | cons c l ih =>
    rw [List.foldl_cons, ih]
    by_cases hl : id ∈ l.map (·.id)
    · rw [if_pos hl, List.map_cons, if_pos (List.mem_cons_of_mem _ hl)]
    · rw [if_neg hl]
      by_cases hc : id = c.id
      · simp [Outboxes.clear, hc]
      · rw [Outboxes.clear, Function.update_of_ne hc, if_neg]
        simpa [hc] using hl

theorem drainTransmits_eq (l : List Client) (hl : (l.map (·.id)).Nodup) (out : Outboxes) :
    drainTransmits l out =
      (l.foldl (fun out c => out.clear c.id) out,
        l.flatMap fun c => (out c.id).map OutgoingDatagram.fromTransmit) := by
  have hacc : ∀ (l : List Client), (l.map (·.id)).Nodup → ∀ (out : Outboxes) sunk,
      l.foldl (fun acc c => (acc.1.clear c.id,
        acc.2 ++ (acc.1 c.id).map OutgoingDatagram.fromTransmit)) (out, sunk) =
      (l.foldl (fun out c => out.clear c.id) out,
        sunk ++ l.flatMap fun c => (out c.id).map OutgoingDatagram.fromTransmit) := by
    intro l
    induction l with
    | nil => simp
    | cons c l ih =>
      intro hl out sunk
      obtain ⟨hc, hrest⟩ := List.nodup_cons.mp hl
      have hothers : ∀ d ∈ l, (out.clear c.id) d.id = out d.id := by
        intro d hd
        apply Function.update_of_ne
        intro he
        exact hc (List.mem_map.mpr ⟨d, hd, he⟩)
      rw [List.foldl_cons, List.foldl_cons, ih hrest, List.flatMap_cons, List.append_assoc]
      congr 3
      apply List.flatMap_congr
      intro d hd
      rw [hothers d hd]
  exact (hacc l hl out []).trans (by rw [List.nil_append])

namespace NetPoll

theorem transmits_trace (feed : NetFeed) {l : List Client} (hl : (l.map (·.id)).Nodup)
    {c : Client} (hc : c ∈ l) (ha : c.isAlive = true) :
    transmits c.id (trace feed l) = c.queued feed := by
  have hshare : ∀ d : Client, transmits c.id
      (if d.isAlive then (taken (fun x => endsPolling x.2.result) (feed d.id)).map (d.id, ·) else []) =
      if d.isAlive = true ∧ d.id = c.id then d.queued feed else [] := by
    intro d
    cases hd : d.isAlive with
    | false => rfl
    | true =>
      rw [if_pos rfl, transmits, List.flatMap_map]
      by_cases hid : d.id = c.id
      · rw [if_pos ⟨rfl, hid⟩, Client.queued]
        apply List.flatMap_congr
        intro x _
        rcases x with ⟨clock, - | t | t | e⟩ <;> simp [NetResult.transmit, hid]
      · rw [if_neg fun h => hid h.2]
        apply List.flatMap_eq_nil_iff.mpr
        intro x _
        rcases x with ⟨clock, - | t | t | e⟩ <;> simp [hid]
  have hassoc : transmits c.id (trace feed l) =
      l.flatMap fun d => if d.isAlive = true ∧ d.id = c.id then d.queued feed else [] := by
    rw [trace, transmits, List.flatMap_assoc]
    exact List.flatMap_congr fun d _ => hshare d
  rw [hassoc]
  clear hassoc hshare
  induction l with
  | nil => cases hc
  | cons d l ih =>
    obtain ⟨hd, hrest⟩ := List.nodup_cons.mp hl
    rw [List.flatMap_cons]
    rcases List.mem_cons.mp hc with rfl | hc
    · have hnone : (l.flatMap fun d =>
          if d.isAlive = true ∧ d.id = c.id then d.queued feed else []) = [] := by
        apply List.flatMap_eq_nil_iff.mpr
        intro d hdl
        exact if_neg fun h => hd (List.mem_map.mpr ⟨d, hdl, h.2⟩)
      rw [if_pos ⟨ha, rfl⟩, hnone, List.append_nil]
    · have hne : ¬ (d.isAlive = true ∧ d.id = c.id) := fun h =>
        hd (List.mem_map.mpr ⟨c, hc, h.2.symm⟩)
      rw [if_neg hne, List.nil_append, ih hrest hc]

end NetPoll

namespace Server
variable {D : Type*} [ActiveSpeakerDetector D] (F : Features) (localAddr : SocketAddr)

/-- The clients that the sweep of the next iteration keeps. -/
def living (s : Server D) : List Client := s.process.reg.clients.filter Client.isAlive

def fresh (s : Server D) (x : Pass) : List SendCall :=
  if s.running then s.living.flatMap fun c => (c.queued x.feed).map Transmit.sendCall else []

def sends (s : Server D) (x : Pass) : List SendCall :=
  if s.running then
    s.living.flatMap fun c => (s.pendingOut c.id ++ c.queued x.feed).map Transmit.sendCall
  else []

def Flushed (s : Server D) : Prop := ∀ id ∈ s.process.reg.ids, s.pendingOut id = []

theorem cycle_ids (s : Server D) (x : Pass) :
    (s.cycle F x).1.process.reg.ids = s.living.map (·.id) := by
  rw [cycle_process]
  have hhints : ∀ r : Registry D, r.emitPublisherLayerHints.ids = r.ids := fun _ => rfl
  have hbadges : ∀ p : Process D, (((p.pollAll F x.pollNow x.feed.feed).reg.fanoutPending F
      x.fanoutNow).emitPublisherLayerHints).ids = p.reg.ids := by
    intro p
    rw [hhints, Registry.ids_of_badges (Registry.fanoutPending_badges F x.fanoutNow _)]
    exact Registry.ids_of_badges (Registry.pollAll_badges F x.pollNow x.feed.feed p.nextAlloc p.reg)
  exact hbadges { s.process with reg := s.process.reg.reapDead F }

/-- The outbox of a client before the flush: what it was, and what the polls have queued. -/
theorem pollAll_pendingOut (s : Server D) (now : Instant) (feed : NetFeed)
    (hids : s.process.reg.ids.Nodup) {c : Client} (hc : c ∈ s.living) :
    ((s.reapDead F).pollAll F now feed).1.pendingOut c.id =
      s.pendingOut c.id ++ c.queued feed := by
  obtain ⟨hmem, ha⟩ := List.mem_filter.mp hc
  have hreap : (s.reapDead F).pendingOut c.id = s.pendingOut c.id := by
    simp only [reapDead]
    rw [emptied_apply, if_neg]
    intro h
    obtain ⟨d, hd, hid⟩ := List.mem_map.mp h
    obtain ⟨hdmem, hdead⟩ := List.mem_filter.mp hd
    rw [List.inj_on_of_nodup_map hids hdmem hmem hid, ha] at hdead
    cases hdead
  have hround := NetPoll.round_outboxes F now feed
    ⟨⟨(s.reapDead F).process.reg, (s.reapDead F).process.nextAlloc, now + fromMillis 100, none⟩,
      (s.reapDead F).pendingOut⟩ c.id
  have hnodup : (s.living.map (·.id)).Nodup := hids.sublist (List.filter_sublist.map _)
  have hown : NetPoll.transmits c.id (NetPoll.trace feed (s.reapDead F).process.reg.clients) =
      c.queued feed := NetPoll.transmits_trace feed hnodup hc ha
  exact hround.trans (congrArg₂ (· ++ ·) hreap hown)

omit [ActiveSpeakerDetector D] in
theorem flushTransmits_sent (s : Server D) (hids : s.process.reg.ids.Nodup) :
    s.flushTransmits.sent =
      s.sent ++ s.process.reg.ids.flatMap fun id => (s.pendingOut id).map Transmit.sendCall := by
  simp only [flushTransmits, drainTransmits_eq s.process.reg.clients hids, Registry.ids,
    List.map_flatMap, List.flatMap_map, List.map_map]
  rfl

omit [ActiveSpeakerDetector D] in
theorem flushTransmits_pendingOut (s : Server D) (hids : s.process.reg.ids.Nodup) {id : ClientId}
    (hid : id ∈ s.process.reg.ids) : s.flushTransmits.pendingOut id = [] := by
  simp only [flushTransmits, drainTransmits_eq s.process.reg.clients hids]
  rw [emptied_apply]
  exact if_pos hid

/-- The clients at the flush are those that the sweep has kept: what waited for them is sent with
what the polls have queued, and nothing waits any more. -/
theorem cycle_flushed (s : Server D) (x : Pass) (hids : s.process.reg.ids.Nodup) :
    (s.cycle F x).1.sent = s.sent ++
        s.living.flatMap (fun c => (s.pendingOut c.id ++ c.queued x.feed).map Transmit.sendCall) ∧
      ∀ id ∈ (s.cycle F x).1.process.reg.ids, (s.cycle F x).1.pendingOut id = [] := by
  have hpending : ∀ c ∈ s.living, ((s.reapDead F).pollAll F x.pollNow x.feed).1.pendingOut c.id =
      s.pendingOut c.id ++ c.queued x.feed := fun c hc =>
    pollAll_pendingOut F s x.pollNow x.feed hids hc
  generalize hq : (s.reapDead F).pollAll F x.pollNow x.feed = q at hpending
  generalize hw : ({ q.1 with process := { q.1.process with
    reg := (q.1.process.reg.fanoutPending F x.fanoutNow).emitPublisherLayerHints } } :
      Server D) = w
  have hcycle : (s.cycle F x).1 = w.flushTransmits := by
    simp only [cycle, hq, hw]
  have hliving : w.process.reg.ids = s.living.map (·.id) := by
    have h := cycle_ids F s x
    rw [hcycle] at h
    exact h
  have hnodup : w.process.reg.ids.Nodup := by
    rw [hliving]
    exact hids.sublist (List.filter_sublist.map _)
  have hsent : w.sent = s.sent := by
    rw [← hw, ← hq]
    rfl
  have hout : w.pendingOut = q.1.pendingOut := by rw [← hw]
  rw [hcycle]
  constructor
  · rw [flushTransmits_sent w hnodup, hsent, hliving, hout, List.flatMap_map]
    congr 1
    apply List.flatMap_congr
    intro c hc
    rw [hpending c hc]
  · intro id hid
    exact flushTransmits_pendingOut w hnodup hid

/-- One iteration sends what waited for the living and what its polls queue, and leaves no
datagram waiting. -/
theorem iterate_sent (s : Server D) (x : Pass) (hr : s.process.room.WellFormed) :
    (s.iterate F localAddr x).sent = s.sent ++ s.sends x ∧
      (s.running = true → (s.iterate F localAddr x).Flushed) := by
  obtain ⟨hsent, hempty⟩ := cycle_flushed F s x (Process.ids_nodup hr)
  unfold iterate sends
  cases hrun : s.running with
  | false => exact ⟨(List.append_nil _).symm, fun h => by cases h⟩
  | true =>
    rw [if_pos rfl, if_pos rfl]
    refine ⟨hsent, fun _ id hid => ?_⟩
    -- The branch brings nobody into the room.
    have hclients := Process.clients_nodup (cycle_wellFormed F s x hr)
    have hsub := Process.run_isServing F (s.cycle F x).1.process
      (branchCalls_isServing F localAddr (s.cycle F x).1.process.reg x.branch)
    rw [← branch_process F localAddr _ hclients] at hsub
    exact hempty id (hsub.1.subset hid)

theorem iterate_flushed (s : Server D) (x : Pass) (hr : s.process.room.WellFormed)
    (h : s.running = false → s.Flushed) : (s.iterate F localAddr x).Flushed := by
  cases hrun : s.running with
  | true => exact (iterate_sent F localAddr s x hr).2 hrun
  | false =>
    have hsame : s.iterate F localAddr x = s := by
      unfold iterate
      rw [hrun, if_neg Bool.false_ne_true]
    rw [hsame]
    exact h hrun

omit [ActiveSpeakerDetector D] in
theorem sends_of_flushed (s : Server D) (x : Pass) (h : s.Flushed) : s.sends x = s.fresh x := by
  unfold sends fresh
  split_ifs
  · apply List.flatMap_congr
    intro c hc
    rw [h c.id (List.mem_map_of_mem (List.mem_of_mem_filter hc)), List.nil_append]
  · rfl

/-- The loop sends each datagram once and nothing else: in its first iteration what it finds
in the outboxes of living clients and what they queue, and in every other what the polls of
that iteration queue. After each of them no datagram waits. -/
theorem sent_run (now : Instant) (ops : List Op) (out : Outboxes) (x : Pass) (l : List Pass) :
    let s : Server D := serveSocket (Process.run F (Process.start now) ops) out
    let s' := Run.run (iterate F localAddr) s (x :: l)
    s'.sent = (s.living.flatMap fun c => (out c.id ++ c.queued x.feed).map Transmit.sendCall) ++
        Run.emissions (iterate F localAddr) fresh (s.iterate F localAddr x) l ∧
      s'.Flushed := by
  intro s s'
  have hr : s.process.room.WellFormed := Process.wellFormed_run F now ops
  obtain ⟨hsent, hflush⟩ := iterate_sent F localAddr s x hr
  have hstart : (s.iterate F localAddr x).process.room.WellFormed ∧
      (s.iterate F localAddr x).Flushed :=
    ⟨iterate_wellFormed F localAddr s x hr, hflush rfl⟩
  have hkeep : ∀ (s : Server D) (x : Pass), s.process.room.WellFormed ∧ s.Flushed →
      (s.iterate F localAddr x).process.room.WellFormed ∧ (s.iterate F localAddr x).Flushed :=
    fun s x h => ⟨iterate_wellFormed F localAddr s x h.1,
      iterate_flushed F localAddr s x h.1 fun _ => h.2⟩
  constructor
  · have hsends : ∀ (s : Server D) (x : Pass), s.process.room.WellFormed ∧ s.Flushed →
        (s.iterate F localAddr x).sent = s.sent ++ s.fresh x := by
      intro s x h
      rw [(iterate_sent F localAddr s x h.1).1, sends_of_flushed s x h.2]
    have hlog := Run.log_run sent hkeep hsends hstart l
    have hfirst : (s.iterate F localAddr x).sent =
        s.living.flatMap fun c => (out c.id ++ c.queued x.feed).map Transmit.sendCall :=
      hsent.trans (List.nil_append _)
    exact hlog.trans (by rw [hfirst])
  · exact (Run.invariant_all hkeep l hstart).2

end Server
end SfuKit
