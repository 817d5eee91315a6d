import SfuKit.Server.Datagrams

/-! # Media through the loop

A packet that str0m hands in while a client is polled is handed, in the same iteration, to every
other client of the room. Between iterations no packet waits.
-/
namespace SfuKit

open Library Interleaving Polling

/-- What some packets owe: each goes to every client but its publisher. -/
def owed (ids : List ClientId) (l : List (ClientId × SfuMediaPayload)) : List HandOff :=
  l.flatMap fun x => (ids.filter fun id => id ≠ x.1).map fun id => (id, x.1, x.2)

theorem handOffs_eq_owed (ids : List ClientId) (q : List Propagated) :
    handOffs ids q = owed ids (packets q) := by
  induction q with
  | nil => rfl
  | cons p q ih =>
    rw [handOffs_cons, ih, packets_cons, owed, owed, List.flatMap_append]
    congr 1
    cases p <;> simp [handOffs, packets]

theorem packets_of_isNotice {q : List Propagated} (h : ∀ e ∈ q, e.isNotice = true) :
    packets q = [] := by
  rw [packets, List.filterMap_eq_nil_iff]
  intro e he
  have hnotice := h e he
  cases e <;> simp [Propagated.isNotice] at hnotice <;> rfl

/-- What the loop does to a client besides handing it packets. -/
inductive Client.Served : Client → Client → Prop
  | tended {c d : Client} (now : Instant) : c.Tended now d → Served c d
  | polled (c : Client) (heap : List ArcTrack) (addr : WeakTrack) (now : Instant)
      (x : PollResult) : Served c (c.pollOutput heap addr now x).1
  | read (c : Client) (now : Instant) (bps : ℕ) : Served c (driveReading c now bps none).client
  | connection (c : Client) (alive : Bool) (writers : List Writer) :
      Served c (c.connection alive writers)

theorem Client.Served.id_eq {c d : Client} (h : c.Served d) : d.id = c.id := by
  cases h with
  | tended now h => exact h.id_eq
  | polled heap addr now x => exact congrArg Prod.fst (pollOutput_badge c now heap addr x)
  | read now bps => exact congrArg Prod.fst (driveReading_badge c now bps none)
  | connection alive writers => rfl

theorem Client.Handles.served_id {c d : Client} {calls : List MediaCall}
    (h : c.Handles Client.Served calls d) : d.id = c.id :=
  Takes.image_eq Client.take_id (fun _ _ => Client.Served.id_eq) h

namespace Registry
variable {D : Type*} [ActiveSpeakerDetector D] (F : Features) (now : Instant)

theorem pollStep_hands (i : ℕ) (st : PollState D) (x : Instant × PollResult) :
    st.reg.Hands Client.Served (pollStep F now i st x).1.reg fun _ => [] := by
  unfold pollStep
  cases hc : st.reg.clients[i]? with
  | none => exact .of_clients rfl
  | some c =>
    dsimp only
    split_ifs
    · have hpolled : c.Handles Client.Served []
          (c.pollOutput st.reg.heap st.nextAlloc x.1 x.2).1 := .of_other (.polled ..)
      generalize c.pollOutput st.reg.heap st.nextAlloc x.1 x.2 = q at hpolled ⊢
      rcases handlePolled_clients F now x.1 i q.1
        { st with reg := { st.reg with clients := st.reg.clients.set i q.1
                                       metrics := st.reg.metrics.calls q.2.2 }
                  nextAlloc := st.nextAlloc + 1 } q.2.1 with h | ⟨-, bps, h⟩
      · rw [Hands, h]
        exact .set hc hpolled
      · rw [Hands, h, List.set_set]
        exact .set hc (hpolled.trans (.of_other (.read q.1 x.1 bps)))
    · exact .of_clients rfl

theorem pollAll_hands (feed : Feed) (nextAlloc : WeakTrack) (r : Registry D) :
    r.Hands Client.Served (r.pollAll F now feed nextAlloc).reg fun _ => [] := by
  apply pollAll_invariant F now feed
    (P := fun st => r.Hands Client.Served st.reg fun _ => [])
  · intro i st c x _ _ _ hst
    exact hst.trans (fun _ _ => Client.Served.id_eq) (pollStep_hands F now i st x)
  · exact fun st a s hst => hst
  · exact .of_clients rfl

theorem handedOut_handlePolled (clock : Instant) (i : ℕ) (c : Client) (st : PollState D)
    (p : Propagated) : handedOut (handlePolled F now clock i c st p).1.reg.history =
      handedOut st.reg.history := by
  obtain ⟨_, hlevel⟩ := recordPolledLevel_eq F clock c st.reg p
  cases p with
  | bandwidthEstimate peer bps =>
    simp only [handlePolled]
    split_ifs
    · rfl
    · simp only [driveAt, handedOut_append, driveReading_history]
      exact List.append_nil _
    · rfl
  | timeout t => rfl
  | noop => rfl
  | rtcpStats peer stats => rfl
  | _ =>
    simp only [handlePolled, hlevel]
    rfl

theorem handedOut_pollAll (feed : Feed) (nextAlloc : WeakTrack) (r : Registry D) :
    handedOut (r.pollAll F now feed nextAlloc).reg.history = handedOut r.history := by
  apply pollAll_invariant F now feed (P := fun st => handedOut st.reg.history = handedOut r.history)
  · intro i st c x hc ha _ hst
    rw [← hst]
    unfold pollStep
    rw [hc]
    dsimp only
    rw [if_pos ha, handedOut_handlePolled]
  · intro st a s hst
    rw [← hst, feedGoogcc, handedOut_append]
    have hsamples : ∀ l : List Client, handedOut (l.map fun c => .sample c.id a s) = [] := by
      intro l
      rw [handedOut, List.filterMap_map]
      exact List.filterMap_eq_nil_iff.mpr fun _ _ => rfl
    rw [hsamples, List.append_nil]
  · rfl

end Registry

namespace Server
variable {D : Type*}

/-- The client of this id, if it is still there, was there before, and has got from then to now
by these calls. -/
def Calls (id : ClientId) (s : Server D) (calls : List MediaCall) (s' : Server D) : Prop :=
  ∀ c' ∈ s'.process.reg.clients, c'.id = id →
    ∃ c ∈ s.process.reg.clients, c.Handles Client.Served calls c'

theorem calls_refl (id : ClientId) (s : Server D) : s.Calls id [] s :=
  fun c' hc' _ => ⟨c', hc', .done c'⟩

theorem calls_trans (id : ClientId) {s s' s'' : Server D} {calls more : List MediaCall}
    (h : s.Calls id calls s') (h' : s'.Calls id more s'') : s.Calls id (calls ++ more) s'' := by
  intro e he hid
  obtain ⟨d, hd, hlater⟩ := h' e he hid
  obtain ⟨c, hc, hnow⟩ := h d hd (hlater.served_id.symm.trans hid)
  exact ⟨c, hc, hnow.trans hlater⟩

variable [ActiveSpeakerDetector D] (F : Features) (localAddr : SocketAddr)

def arrivals (s : Server D) (x : Pass) : List (ClientId × SfuMediaPayload) :=
  NetPoll.media (NetPoll.trace x.feed s.living)

def relays (s : Server D) (x : Pass) : List HandOff :=
  if s.running then owed (s.living.map (·.id)) (s.arrivals x) else []

/-- The tracks of the room when an iteration fans out. -/
def tracks (s : Server D) (x : Pass) : List ArcTrack :=
  ((s.reapDead F).pollAll F x.pollNow x.feed).1.process.reg.heap

/-- The calls of `handle_media_data_out` that an iteration makes on a client for its arrivals. -/
def callsOn (id : ClientId) (s : Server D) (x : Pass) : List MediaCall :=
  if s.running then mediaCalls (s.tracks F x) id (s.arrivals x) else []

/-- No packet waits in the queue. -/
def Relayed (s : Server D) : Prop := packets s.process.reg.toPropagate = []

theorem pollAll_packets (s : Server D) (x : Pass) :
    packets ((s.reapDead F).pollAll F x.pollNow x.feed).1.process.reg.toPropagate =
      packets s.process.reg.toPropagate ++ s.arrivals x := by
  have hround := NetPoll.round_packets F x.pollNow x.feed
    ⟨⟨(s.reapDead F).process.reg, (s.reapDead F).process.nextAlloc, x.pollNow + fromMillis 100,
      none⟩, (s.reapDead F).pendingOut⟩
  simp only [pollAll]
  split <;> exact hround

/-- The branch of an iteration makes no entry in the history, and queues nothing but notices. -/
theorem branch_notices (r : Registry D) (b : Branch) :
    (branch F localAddr r b).history = r.history ∧
      ∃ notices, (∀ e ∈ notices, e.isNotice = true) ∧
        (branch F localAddr r b).toPropagate = r.toPropagate ++ notices := by
  cases b with
  | asoTick now s =>
    simp only [branch]
    split_ifs
    · simp only [Registry.tickSpeakerScores, Registry.tickActiveSpeaker]
      split
      · refine ⟨rfl, _, ?_, rfl⟩
        simp [Propagated.isNotice]
      · exact ⟨rfl, [], by simp, (List.append_nil _).symm⟩
    · exact ⟨rfl, [], by simp, (List.append_nil _).symm⟩
  | _ => exact ⟨rfl, [], by simp, (List.append_nil _).symm⟩

theorem branch_hands (r : Registry D) (b : Branch) :
    r.Hands Client.Served (branch F localAddr r b) fun _ => [] := by
  have htake : ∀ (c : Client) (s : Str0m) (input : Input),
      c.Handles Client.Served [] (c.takeInput s input) := by
    intro c s input
    rw [c.takeInput_eq]
    exact .of_other (.connection ..)
  have htick : ∀ (now : Instant) (s : Str0m),
      r.Hands Client.Served (r.tick s now) fun _ => [] := by
    refine fun now s => .of_map rfl fun c => ?_
    unfold Client.handleTimeout
    split_ifs
    · exact htake c s _
    · exact .done c
  cases b with
  | shutdown => exact .of_clients rfl
  | recvFailed => exact .of_clients rfl
  | sleepElapsed now s => exact htick now s
  | asoTick now s =>
    simp only [branch]
    split_ifs
    · simp only [Registry.tickSpeakerScores, Registry.tickActiveSpeaker]
      split <;> exact .of_clients rfl
    · exact htick now s
  | received now source wire s =>
    simp only [branch, Registry.handleIncoming, Registry.Hands]
    generalize (⟨now, .udp, source, localAddr, wire.take recvBufferBytes⟩ : IncomingDatagram) = d
    have hinput : ∀ c : Client, c.Handles Client.Served [] (c.handleInput s d) := by
      intro c
      unfold Client.handleInput
      split
      · split
        · exact .done c
        · exact htake c s _
      · exact .done c
    induction r.clients with
    | nil => exact .refl []
    | cons c l ih =>
      by_cases ha : c.accepts s d = true
      · simp only [List.replaceF, ha, if_true]
        exact .cons (hinput c) (.refl l)
      · simp only [List.replaceF, ha]
        exact .cons (.done c) ih

theorem iterate_notices (s : Server D) (x : Pass) (hrun : s.running = true) :
    ∀ e ∈ (s.iterate F localAddr x).process.reg.toPropagate, e.isNotice = true := by
  have hcycle : ∀ e ∈ (s.cycle F x).1.process.reg.toPropagate, e.isNotice = true := by
    have hdrained : ∀ r : Registry D, (r.fanoutPending F x.fanoutNow).toPropagate = [] :=
      Registry.fanoutPending_toPropagate F x.fanoutNow
    intro e he
    rcases List.mem_append.mp he with he | he
    · rw [hdrained] at he
      cases he
    · obtain ⟨_, -, rfl⟩ := List.mem_map.mp he
      split_ifs <;> rfl
  obtain ⟨-, notices, hnotices, hqueue⟩ :=
    branch_notices F localAddr (s.cycle F x).1.process.reg x.branch
  have hiterate : (s.iterate F localAddr x).process.reg =
      branch F localAddr (s.cycle F x).1.process.reg x.branch := by
    unfold iterate
    rw [hrun, if_pos rfl]
  rw [hiterate, hqueue, List.forall_mem_append]
  exact ⟨hcycle, hnotices⟩

/-- A running iteration hands out the packets that waited and those that arrive, and leaves
none waiting. -/
theorem iterate_relays (s : Server D) (x : Pass) (hrun : s.running = true) :
    handedOut (s.iterate F localAddr x).process.reg.history =
        handedOut s.process.reg.history ++
          owed (s.living.map (·.id)) (packets s.process.reg.toPropagate ++ s.arrivals x) ∧
      (s.iterate F localAddr x).Relayed := by
  refine ⟨?_, packets_of_isNotice (iterate_notices F localAddr s x hrun)⟩
  have hiterate : (s.iterate F localAddr x).process.reg.history =
      (s.cycle F x).1.process.reg.history := by
    unfold iterate
    rw [hrun, if_pos rfl]
    exact (branch_notices F localAddr (s.cycle F x).1.process.reg x.branch).1
  rw [hiterate]
  generalize hq : (s.reapDead F).pollAll F x.pollNow x.feed = q
  have hcycle : (s.cycle F x).1.process.reg.history =
      (q.1.process.reg.fanoutPending F x.fanoutNow).history := by
    simp only [cycle, hq]
    rfl
  have hprocess : q.1.process = (s.reapDead F).process.pollAll F x.pollNow x.feed.feed := by
    rw [← hq]
    exact pollAll_process F x.pollNow x.feed (s.reapDead F)
  have hids : q.1.process.reg.ids = s.living.map (·.id) := by
    rw [hprocess]
    exact Registry.ids_of_badges (Registry.pollAll_badges F x.pollNow x.feed.feed _ _)
  have hqueue : packets q.1.process.reg.toPropagate =
      packets s.process.reg.toPropagate ++ s.arrivals x := by
    rw [← hq]
    exact pollAll_packets F s x
  have hbefore : handedOut q.1.process.reg.history = handedOut s.process.reg.history := by
    rw [hprocess]
    exact Registry.handedOut_pollAll F x.pollNow x.feed.feed _ _
  rw [hcycle, Registry.handedOut_fanoutPending, hbefore, handOffs_eq_owed, hids, hqueue]

/-- What a running iteration does to a client that its sweep keeps are the calls for the packets
that waited and those that arrive. -/
theorem iterate_handles (s : Server D) (x : Pass) (hrun : s.running = true) :
    EachTakes Client.take Client.Served Client.id s.living
      (fun id => mediaCalls (s.tracks F x) id (packets s.process.reg.toPropagate ++ s.arrivals x))
      (s.iterate F localAddr x).process.reg.clients := by
  let swept : Registry D := (s.reapDead F).process.reg
  let polled : Registry D := ((s.reapDead F).pollAll F x.pollNow x.feed).1.process.reg
  let hinted : Registry D := (polled.fanoutPending F x.fanoutNow).emitPublisherLayerHints
  have hpolled : swept.Hands Client.Served polled fun _ => [] := by
    have hprocess := pollAll_process F x.pollNow x.feed (s.reapDead F)
    have hclients : polled.clients = _ := congrArg (fun p => p.reg.clients) hprocess
    rw [Registry.Hands, hclients]
    exact Registry.pollAll_hands F x.pollNow x.feed.feed _ swept
  have hdrained : polled.Hands Client.Served hinted fun id =>
      mediaCalls (s.tracks F x) id (packets polled.toPropagate) :=
    EachTakes.mono (fun _ _ => .tended x.fanoutNow)
      (Registry.fanoutPending_hands F x.fanoutNow polled)
  have hbranch : hinted.Hands Client.Served (branch F localAddr hinted x.branch) fun _ => [] :=
    branch_hands F localAddr hinted x.branch
  have hqueue : packets polled.toPropagate = packets s.process.reg.toPropagate ++ s.arrivals x :=
    pollAll_packets F s x
  have hid : ∀ c d : Client, c.Served d → d.id = c.id := fun _ _ => Client.Served.id_eq
  have hall := hpolled.trans hid (hdrained.trans hid hbranch)
  simp only [List.nil_append, List.append_nil, hqueue] at hall
  unfold iterate
  rw [hrun, if_pos rfl]
  exact hall

theorem iterate_stopped (s : Server D) (x : Pass) (h : s.running = false) :
    s.iterate F localAddr x = s := by
  unfold iterate
  rw [h, if_neg Bool.false_ne_true]

theorem iterate_relayed (s : Server D) (x : Pass) (h : s.Relayed) :
    (s.iterate F localAddr x).Relayed ∧ handedOut (s.iterate F localAddr x).process.reg.history =
      handedOut s.process.reg.history ++ s.relays x := by
  cases hrun : s.running with
  | true =>
    obtain ⟨hout, hnone⟩ := iterate_relays F localAddr s x hrun
    refine ⟨hnone, ?_⟩
    rw [hout, relays, if_pos hrun, h, List.nil_append]
  | false =>
    rw [iterate_stopped F localAddr s x hrun, relays, hrun, if_neg Bool.false_ne_true,
      List.append_nil]
    exact ⟨h, rfl⟩

theorem iterate_calls (id : ClientId) (s : Server D) (x : Pass) (h : s.Relayed) :
    s.Calls id (s.callsOn F id x) (s.iterate F localAddr x) := by
  intro c' hc' hid
  cases hrun : s.running with
  | true =>
    have hsteps := iterate_handles F localAddr s x hrun
    rw [h, List.nil_append] at hsteps
    obtain ⟨c, hc, hhandles⟩ :=
      hsteps.exists_of_mem Client.take_id (fun _ _ => Client.Served.id_eq) hc'
    refine ⟨c, List.mem_of_mem_filter hc, ?_⟩
    rw [callsOn, hrun, if_pos rfl, ← hid]
    exact hhandles
  | false =>
    rw [iterate_stopped F localAddr s x hrun] at hc'
    rw [callsOn, hrun, if_neg Bool.false_ne_true]
    exact ⟨c', hc', .done c'⟩

/-- Nobody is in the room or about to be, and nothing has left it. -/
structure Deserted (s : Server D) : Prop where
  wellFormed : s.process.room.WellFormed
  connected : s.process.reg.ids = []
  held : s.process.held.map (·.id) = []
  sent : s.sent = []
  handed : handedOut s.process.reg.history = []

theorem iterate_deserted (s : Server D) (x : Pass) (h : s.Deserted) :
    (s.iterate F localAddr x).Deserted := by
  have hliving : s.living = [] := by
    rw [living, List.map_eq_nil_iff.mp h.connected]
    rfl
  obtain ⟨hids, hheld, -⟩ := Process.run_isServing F s.process (calls_isServing F localAddr s x)
  rw [← iterate_process F localAddr s x h.wellFormed] at hids hheld
  constructor
  · exact iterate_wellFormed F localAddr s x h.wellFormed
  · rw [h.connected] at hids
    exact List.sublist_nil.mp hids
  · exact hheld.trans h.held
  · rw [(iterate_sent F localAddr s x h.wellFormed).1, h.sent, sends, hliving]
    exact ite_self _
  · cases hrun : s.running with
    | true =>
      have howed : ∀ l : List (ClientId × SfuMediaPayload), owed [] l = [] :=
        fun l => List.flatMap_eq_nil_iff.mpr fun _ _ => rfl
      rw [(iterate_relays F localAddr s x hrun).1, hliving, h.handed, List.map_nil, howed]
      rfl
    | false =>
      rw [iterate_stopped F localAddr s x hrun]
      exact h.handed

/-- A loop that has built its registry itself serves nobody: whatever datagrams arrive and
whatever the clock and str0m do, nobody joins, nothing is sent and no packet is handed out. -/
theorem serve_run (now : Instant) (l : List Pass) :
    let s : Server D := Run.run (iterate F localAddr) (serve now) l
    s.process.clients = [] ∧ s.sent = [] ∧ handedOut s.process.reg.history = [] := by
  intro s
  have hstart : (serve now : Server D).Deserted := by
    constructor
    · exact Announcement.Room.wellFormed_empty
    all_goals rfl
  have h : s.Deserted := Run.invariant_all (fun s x h => iterate_deserted F localAddr s x h) l hstart
  refine ⟨?_, h.sent, h.handed⟩
  rw [Process.clients, List.map_eq_nil_iff.mp h.connected, List.map_eq_nil_iff.mp h.held]
  rfl

/-- Through any run of the loop, over any room, each packet that str0m hands in goes once, in
order, to every other client that the sweep of its iteration has kept, and nothing else is
handed out; the first iteration also hands out the packets it finds in the queue. So the clients
that are there at the end have come there by the calls for these packets. -/
theorem handedOut_run (p : Process D) (out : Outboxes) (x : Pass) (l : List Pass) :
    let s := serveSocket p out
    let s' := Run.run (iterate F localAddr) s (x :: l)
    handedOut s'.process.reg.history = handedOut p.reg.history ++
        (owed (s.living.map (·.id)) (packets p.reg.toPropagate ++ s.arrivals x) ++
          Run.emissions (iterate F localAddr) relays (s.iterate F localAddr x) l) ∧
      (∀ c' ∈ s'.process.reg.clients, ∃ c ∈ p.reg.clients, c.Handles Client.Served
        (mediaCalls (s.tracks F x) c'.id (packets p.reg.toPropagate ++ s.arrivals x) ++
          Run.emissions (iterate F localAddr) (callsOn F c'.id) (s.iterate F localAddr x) l) c') ∧
      s'.Relayed := by
  intro s s'
  obtain ⟨hfirst, hnone⟩ := iterate_relays F localAddr s x rfl
  have hinv : ∀ (s : Server D) x, s.Relayed → (s.iterate F localAddr x).Relayed :=
    fun s x h => (iterate_relayed F localAddr s x h).1
  have hlog := Run.log_run (fun s : Server D => handedOut s.process.reg.history) hinv
    (fun s x h => (iterate_relayed F localAddr s x h).2) hnone l
  refine ⟨?_, ?_, Run.invariant_all hinv l hnone⟩
  · rw [← List.append_assoc]
    exact hlog.trans (congrArg (· ++ _) hfirst)
  · intro c' hc'
    have hrest := Run.relates_run (calls_refl c'.id) (calls_trans c'.id) hinv
      (iterate_calls F localAddr c'.id) hnone l
    obtain ⟨d, hd, hlater⟩ := hrest c' hc' rfl
    obtain ⟨c, hc, hnow⟩ := (iterate_handles F localAddr s x rfl).exists_of_mem Client.take_id
      (fun _ _ => Client.Served.id_eq) hd
    rw [← hlater.served_id] at hnow
    exact ⟨c, List.mem_of_mem_filter hc, hnow.trans hlater⟩

end Server
end SfuKit
