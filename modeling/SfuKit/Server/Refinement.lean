import SfuKit.Server.Turns
import SfuKit.Tracks.CrossAdvertisement

/-! # The UDP loop is a run of the process

Reaping, polling, the fanout, the hints and the detector are calls of the process, and what a
datagram or a timeout does to a client is a change of its connection. So an iteration is a list
of calls, and whatever holds of every run of the process holds of the loop.
-/
namespace SfuKit

open Library Polling

/-- What an input does to a connection, as a call of the process. -/
def Handled.op (h : Handled) (id : ClientId) : Op := .connection id (h.ok && h.alive) h.writers

def Handled.apply (h : Handled) (c : Client) : Client := c.connection (h.ok && h.alive) h.writers

/-- The calls that a list of iterations of the loop can amount to. -/
def Op.isServing : Op → Bool
  | .reapDead | .pollAll .. | .fanoutPending _ | .emitPublisherLayerHints | .connection ..
  | .tickActiveSpeaker _ | .tickSpeakerScores => true
  | _ => false

theorem map_eq_self {α : Type*} {l : List α} {f : α → α} (h : ∀ a ∈ l, f a = a) : l.map f = l := by
  rw [List.map_congr_left h, List.map_id']

theorem replaceF_none {p : Client → Bool} {l : List Client} (g : Client → Client)
    (h : l.find? p = none) : l.replaceF (fun c => if p c then some (g c) else none) = l := by
  induction l with
  | nil => rfl
  | cons c l ih =>
    rw [List.find?_cons] at h
    cases hc : p c with
    | true => simp [hc] at h
    | false =>
      rw [hc] at h
      simp [hc, ih h]

/-- Where ids are unique, the first client found is the only one with its id. -/
theorem replaceF_eq_map {p : Client → Bool} {l : List Client} {a : Client} (g : Client → Client)
    (hl : (l.map (·.id)).Nodup) (h : l.find? p = some a) :
    l.replaceF (fun c => if p c then some (g c) else none) =
      l.map fun c => if c.id = a.id then g c else c := by
  induction l with
  | nil => cases h
  | cons c l ih =>
    obtain ⟨hc, hrest⟩ := List.nodup_cons.mp hl
    rw [List.find?_cons] at h
    cases hp : p c with
    | true =>
      rw [hp] at h
      obtain rfl := Option.some.inj h
      have hsame : l.map (fun d => if d.id = c.id then g d else d) = l := by
        apply map_eq_self
        intro d hd
        apply if_neg
        intro he
        exact hc (List.mem_map.mpr ⟨d, hd, he⟩)
      simp [hp, hsame]
    | false =>
      rw [hp] at h
      have hne : c.id ≠ a.id := by
        intro he
        exact hc (List.mem_map.mpr ⟨a, List.mem_of_find?_eq_some h, he.symm⟩)
      simp [hp, hne, ih hrest h]

namespace Process
variable {D : Type*} [ActiveSpeakerDetector D] (F : Features)

/-- A list of changes to different connections is one change to all of them. -/
theorem run_connections (f : ClientId → Handled) {ks : List ClientId} (hks : ks.Nodup)
    (p : Process D) : run F p (ks.map fun k => (f k).op k) =
      let change : Client → Client := fun c => if c.id ∈ ks then (f c.id).apply c else c
      { p with reg := { p.reg with clients := p.reg.clients.map change }
               held := p.held.map change } := by
  induction ks generalizing p with
  | nil =>
    simp [run]
  | cons k ks ih =>
    obtain ⟨hk, hrest⟩ := List.nodup_cons.mp hks
    have hone : ∀ l : List Client,
        (updateClient k (fun c => (f k).apply c) l).map
            (fun c => if c.id ∈ ks then (f c.id).apply c else c) =
          l.map fun c => if c.id ∈ k :: ks then (f c.id).apply c else c := by
      intro l
      rw [updateClient, List.map_map]
      apply List.map_congr_left
      intro c _
      rw [Function.comp_apply]
      by_cases hc : c.id = k
      · have hid : ((f k).apply c).id = k := hc
        rw [if_pos hc, hid, if_neg hk, hc, if_pos List.mem_cons_self]
      · rw [if_neg hc]
        simp [hc]
    have hstep : p.step F ((f k).op k) = p.onClient k fun c => (f k).apply c := rfl
    rw [List.map_cons]
    change run F (p.step F ((f k).op k)) _ = _
    rw [ih hrest, hstep]
    simp only [onClient, hone]

theorem run_room (f : ClientId → Handled) {p : Process D} (hids : (p.clients.map (·.id)).Nodup)
    {ks : List ClientId} (hks : ks.Nodup) (hroom : ks ⊆ p.reg.ids) :
    run F p (ks.map fun k => (f k).op k) =
      { p with reg := { p.reg with clients := p.reg.clients.map fun c =>
          if c.id ∈ ks then (f c.id).apply c else c } } := by
  rw [run_connections F f hks]
  have hall : (p.reg.clients.map (·.id) ++ p.held.map (·.id)).Nodup := by
    simpa [clients] using hids
  have hheld : p.held.map (fun c => if c.id ∈ ks then (f c.id).apply c else c) = p.held := by
    apply map_eq_self
    intro c hc
    apply if_neg
    intro h
    exact (List.nodup_append.mp hall).2.2 _ (hroom h) _ (List.mem_map_of_mem hc) rfl
  dsimp only
  rw [hheld]

/-- While a room is served nobody enters it, and the application's own clients stay. -/
theorem step_isServing (p : Process D) {op : Op} (hop : op.isServing = true) :
    (p.step F op).reg.ids.Sublist p.reg.ids ∧ (p.step F op).held.map (·.id) = p.held.map (·.id) ∧
      (p.step F op).idCounter = p.idCounter := by
  cases op with
  | reapDead => exact ⟨List.filter_sublist.map _, rfl, rfl⟩
  | pollAll now feed =>
    have hids := Registry.ids_of_badges (Registry.pollAll_badges F now feed p.nextAlloc p.reg)
    exact ⟨hids ▸ List.Sublist.refl _, rfl, rfl⟩
  | fanoutPending now =>
    have hids := Registry.ids_of_badges (Registry.fanoutPending_badges F now p.reg)
    exact ⟨hids ▸ List.Sublist.refl _, rfl, rfl⟩
  | emitPublisherLayerHints => exact ⟨List.Sublist.refl _, rfl, rfl⟩
  | connection id alive writers =>
    have hid : ∀ l : List Client, (updateClient id (fun c => c.connection alive writers) l).map
        (·.id) = l.map (·.id) := by
      intro l
      rw [updateClient, List.map_map]
      apply List.map_congr_left
      intro c _
      rw [Function.comp_apply]
      split_ifs <;> rfl
    have hids : (p.step F (.connection id alive writers)).reg.ids = p.reg.ids := hid p.reg.clients
    exact ⟨hids ▸ List.Sublist.refl _, hid p.held, rfl⟩
  | tickActiveSpeaker now =>
    simp only [step, Registry.tickActiveSpeaker]
    split_ifs
    · split <;> exact ⟨List.Sublist.refl _, rfl, rfl⟩
    · exact ⟨List.Sublist.refl _, rfl, rfl⟩
  | tickSpeakerScores =>
    simp only [step]
    split_ifs <;> exact ⟨List.Sublist.refl _, rfl, rfl⟩
  | _ => cases hop

theorem run_isServing (p : Process D) {ops : List Op} (hops : ∀ op ∈ ops, op.isServing = true) :
    (run F p ops).reg.ids.Sublist p.reg.ids ∧ (run F p ops).held.map (·.id) = p.held.map (·.id) ∧
      (run F p ops).idCounter = p.idCounter := by
  have hstep : ∀ (q : Process D) (op : Op),
      (q.reg.ids.Sublist p.reg.ids ∧ q.held.map (·.id) = p.held.map (·.id) ∧
        q.idCounter = p.idCounter) → op.isServing = true →
      (q.step F op).reg.ids.Sublist p.reg.ids ∧
        (q.step F op).held.map (·.id) = p.held.map (·.id) ∧
        (q.step F op).idCounter = p.idCounter := by
    intro q op hq hop
    obtain ⟨hids, hheld, hcounter⟩ := step_isServing F q hop
    exact ⟨hids.trans hq.1, hheld.trans hq.2.1, hcounter.trans hq.2.2⟩
  exact Run.invariant hstep ⟨List.Sublist.refl _, rfl, rfl⟩ (Run.along_of_forall hops p)

end Process

namespace Registry
variable {D : Type*}

def tickCalls (s : Str0m) (now : Instant) (r : Registry D) : List Op :=
  ((r.clients.filter Client.isAlive).map (·.id)).map fun id => (s.handled id (.timeout now)).op id

/-- The client that `handle_incoming` hands a datagram to. -/
def acceptor (s : Str0m) (d : IncomingDatagram) (r : Registry D) : Option Client :=
  r.clients.find? fun c => c.accepts s d

def incomingCalls (s : Str0m) (d : IncomingDatagram) (r : Registry D) : List Op :=
  match r.acceptor s d, d.input s with
  | some c, some input => if c.isAlive then [(s.handled c.id input).op c.id] else []
  | _, _ => []

end Registry

namespace Server
variable {D : Type*} [ActiveSpeakerDetector D] (F : Features) (localAddr : SocketAddr)

def branchCalls (r : Registry D) : Branch → List Op
  | .shutdown | .recvFailed => []
  | .sleepElapsed now s => r.tickCalls s now
  | .asoTick now s =>
    if F.activeSpeaker then [.tickActiveSpeaker now, .tickSpeakerScores] else r.tickCalls s now
  | .received now source wire s =>
    r.incomingCalls s ⟨now, .udp, source, localAddr, wire.take recvBufferBytes⟩

/-- An iteration, as calls of the process. -/
def calls (s : Server D) (x : Pass) : List Op :=
  if s.running then
    [.reapDead, .pollAll x.pollNow x.feed.feed, .fanoutPending x.fanoutNow,
      .emitPublisherLayerHints] ++ branchCalls F localAddr (s.cycle F x).1.process.reg x.branch
  else []

theorem pollAll_process (now : Instant) (feed : NetFeed) (s : Server D) :
    (s.pollAll F now feed).1.process = s.process.pollAll F now feed.feed := by
  simp only [pollAll, Process.pollAll, Registry.pollAll, NetPoll.round_poll]
  cases (Registry.pollClients F now feed.feed ⟨s.process.reg, s.process.nextAlloc,
    now + fromMillis 100, none⟩).lastVideoTiming <;> rfl

theorem cycle_process (s : Server D) (x : Pass) : (s.cycle F x).1.process =
    Process.run F s.process [.reapDead, .pollAll x.pollNow x.feed.feed, .fanoutPending x.fanoutNow,
      .emitPublisherLayerHints] := by
  have hpoll := pollAll_process F x.pollNow x.feed (s.reapDead F)
  simp only [cycle, flushTransmits, hpoll]
  rfl

theorem run_tickCalls (p : Process D) (hids : (p.clients.map (·.id)).Nodup) (s : Str0m)
    (now : Instant) : Process.run F p (p.reg.tickCalls s now) =
      { p with reg := p.reg.tick s now } := by
  have hreg : (p.reg.clients.map (·.id)).Nodup :=
    hids.sublist ((List.sublist_append_left _ _).map _)
  have hliving : ((p.reg.clients.filter Client.isAlive).map (·.id)).Sublist p.reg.ids :=
    List.filter_sublist.map _
  rw [Registry.tickCalls, Process.run_room F (fun id => s.handled id (.timeout now)) hids
    (hreg.sublist hliving) hliving.subset]
  have hmem : ∀ c ∈ p.reg.clients,
      c.id ∈ (p.reg.clients.filter Client.isAlive).map (·.id) ↔ c.isAlive = true := by
    intro c hc
    constructor
    · intro h
      obtain ⟨d, hd, hid⟩ := List.mem_map.mp h
      obtain ⟨hdmem, hdalive⟩ := List.mem_filter.mp hd
      exact List.inj_on_of_nodup_map hreg hdmem hc hid ▸ hdalive
    · exact fun h => List.mem_map_of_mem (List.mem_filter.mpr ⟨hc, h⟩)
  have hclients : p.reg.clients.map (fun c =>
      if c.id ∈ (p.reg.clients.filter Client.isAlive).map (·.id) then
        (s.handled c.id (.timeout now)).apply c else c) =
      p.reg.clients.map fun c => c.handleTimeout s now := by
    apply List.map_congr_left
    intro c hc
    simp only [hmem c hc, Client.handleTimeout, Client.takeInput_eq]
    rfl
  rw [hclients]
  rfl

theorem run_handleInput {p : Process D} (hids : (p.clients.map (·.id)).Nodup) (s : Str0m)
    {d : IncomingDatagram} {a : Client} (ha : a ∈ p.reg.clients) {input : Input}
    (hinput : d.input s = some input) :
    Process.run F p (if a.isAlive then [(s.handled a.id input).op a.id] else []) =
      { p with reg := { p.reg with clients := p.reg.clients.map fun c =>
          if c.id = a.id then c.handleInput s d else c } } := by
  have hreg : (p.reg.clients.map (·.id)).Nodup :=
    hids.sublist ((List.sublist_append_left _ _).map _)
  have hone : ∀ c ∈ p.reg.clients, c.id = a.id → c = a := fun c hc hid =>
    List.inj_on_of_nodup_map hreg hc ha hid
  cases halive : a.isAlive with
  | false =>
    have hsame : p.reg.clients.map (fun c => if c.id = a.id then c.handleInput s d else c) =
        p.reg.clients := by
      apply map_eq_self
      intro c hc
      split_ifs with hid
      · rw [hone c hc hid, Client.handleInput, halive, if_neg Bool.false_ne_true]
      · rfl
    rw [hsame]
    rfl
  | true =>
    have hroom : [a.id] ⊆ p.reg.ids :=
      (List.singleton_sublist.mpr (List.mem_map_of_mem ha)).subset
    have hrun := Process.run_room F (fun id => s.handled id input) hids
      (List.nodup_singleton a.id) hroom
    rw [List.map_singleton] at hrun
    rw [if_pos rfl, hrun]
    have hclients : p.reg.clients.map (fun c =>
        if c.id ∈ [a.id] then (s.handled c.id input).apply c else c) =
        p.reg.clients.map fun c => if c.id = a.id then c.handleInput s d else c := by
      apply List.map_congr_left
      intro c hc
      simp only [List.mem_singleton]
      split_ifs with hid
      · rw [hone c hc hid, Client.handleInput, if_pos halive, hinput]
        exact (a.takeInput_eq s input).symm
      · rfl
    rw [hclients]

theorem run_incomingCalls (p : Process D) (hids : (p.clients.map (·.id)).Nodup) (s : Str0m)
    (now : Instant) (source : SocketAddr) (payload : List UInt8) :
    Process.run F p (p.reg.incomingCalls s ⟨now, .udp, source, localAddr, payload⟩) =
      { p with reg := (p.reg.handleIncoming s now source localAddr payload).1 } := by
  have hreg : (p.reg.clients.map (·.id)).Nodup :=
    hids.sublist ((List.sublist_append_left _ _).map _)
  generalize hd : (⟨now, .udp, source, localAddr, payload⟩ : IncomingDatagram) = d
  have hhandle : (p.reg.handleIncoming s now source localAddr payload).1 =
      { p.reg with clients := p.reg.clients.replaceF fun c =>
          if c.accepts s d then some (c.handleInput s d) else none } := by
    rw [← hd]
    rfl
  rw [hhandle]
  unfold Registry.incomingCalls
  cases ha : p.reg.acceptor s d with
  | none =>
    rw [replaceF_none _ ha]
    rfl
  | some a =>
    rw [replaceF_eq_map _ hreg ha]
    have hmem : a ∈ p.reg.clients := List.mem_of_find?_eq_some ha
    have haccepts : a.accepts s d = true := by
      have hfound := List.find?_some ha
      exact hfound
    cases hinput : d.input s with
    | none => simp [Client.accepts, hinput] at haccepts
    | some input => exact run_handleInput F hids s hmem hinput

theorem branch_process (p : Process D) (hids : (p.clients.map (·.id)).Nodup) (b : Branch) :
    { p with reg := branch F localAddr p.reg b } =
      Process.run F p (branchCalls F localAddr p.reg b) := by
  cases b with
  | shutdown => rfl
  | recvFailed => rfl
  | sleepElapsed now s => exact (run_tickCalls F p hids s now).symm
  | asoTick now s =>
    simp only [branch, branchCalls]
    split_ifs with hF
    · simp [Process.run, Run.run, Process.step, hF]
    · exact (run_tickCalls F p hids s now).symm
  | received now source wire s => exact (run_incomingCalls F localAddr p hids s now source _).symm

omit [ActiveSpeakerDetector D] in
theorem branchCalls_isServing (r : Registry D) (b : Branch) :
    ∀ op ∈ branchCalls F localAddr r b, op.isServing = true := by
  have htick : ∀ (s : Str0m) now, ∀ op ∈ r.tickCalls s now, op.isServing = true := by
    intro s now op hop
    obtain ⟨id, -, rfl⟩ := List.mem_map.mp hop
    rfl
  cases b with
  | shutdown => simp [branchCalls]
  | recvFailed => simp [branchCalls]
  | sleepElapsed now s => exact htick s now
  | asoTick now s =>
    simp only [branchCalls]
    split_ifs
    · simp [Op.isServing]
    · exact htick s now
  | received now source wire s =>
    simp only [branchCalls, Registry.incomingCalls]
    split
    · split_ifs
      · simp [Handled.op, Op.isServing]
      · simp
    · simp

theorem cycle_wellFormed (s : Server D) (x : Pass) (hr : s.process.room.WellFormed) :
    (s.cycle F x).1.process.room.WellFormed := by
  rw [cycle_process]
  exact Run.invariant_all (fun p op h => Process.wellFormed_step F p op h) _ hr

/-- One iteration of the loop is the list of its calls. -/
theorem iterate_process (s : Server D) (x : Pass) (hr : s.process.room.WellFormed) :
    (s.iterate F localAddr x).process = Process.run F s.process (s.calls F localAddr x) := by
  unfold iterate calls
  cases s.running with
  | false => rfl
  | true =>
    rw [if_pos rfl, if_pos rfl, Process.run, Run.run_append]
    have hcycle := cycle_process F s x
    rw [Process.run] at hcycle
    rw [← hcycle]
    exact branch_process F localAddr _ (Process.clients_nodup (cycle_wellFormed F s x hr)) x.branch

theorem calls_isServing (s : Server D) (x : Pass) :
    ∀ op ∈ s.calls F localAddr x, op.isServing = true := by
  unfold calls
  cases s.running with
  | false => simp
  | true =>
    rw [if_pos rfl]
    intro op hop
    rcases List.mem_append.mp hop with h | h
    · simp only [List.mem_cons, List.not_mem_nil, or_false] at h
      rcases h with rfl | rfl | rfl | rfl <;> rfl
    · exact branchCalls_isServing F localAddr _ x.branch op h

theorem iterate_wellFormed (s : Server D) (x : Pass) (hr : s.process.room.WellFormed) :
    (s.iterate F localAddr x).process.room.WellFormed := by
  rw [iterate_process F localAddr s x hr]
  exact Run.invariant_all (fun p op h => Process.wellFormed_step F p op h) _ hr

def runCalls (s : Server D) (l : List Pass) : List Op :=
  Run.emissions (iterate F localAddr) (calls F localAddr) s l

theorem run_process (s : Server D) (l : List Pass) (hr : s.process.room.WellFormed) :
    (Run.run (iterate F localAddr) s l).process =
      Process.run F s.process (runCalls F localAddr s l) :=
  Run.run_refines process (fun s x h => iterate_wellFormed F localAddr s x h)
    (fun s x h => iterate_process F localAddr s x h) hr l

/-- The loop over a room that the application has built is a run of the process: it goes on
with the calls of its iterations, none of which adds a client or touches those the application
holds, and the room has no client that it did not have. -/
theorem serving_refines (now : Instant) (ops : List Op) (out : Outboxes) (l : List Pass) :
    let s : Server D := serveSocket (Process.run F (Process.start now) ops) out
    let s' := Run.run (iterate F localAddr) s l
    s'.process = Process.run F (Process.start now) (ops ++ runCalls F localAddr s l) ∧
      s'.process.reg.ids.Sublist s.process.reg.ids ∧
      s'.process.held.map (·.id) = s.process.held.map (·.id) ∧
      s'.process.idCounter = s.process.idCounter := by
  intro s s'
  have hr : s.process.room.WellFormed := Process.wellFormed_run F now ops
  have hrun : s'.process = Process.run F s.process (runCalls F localAddr s l) :=
    run_process F localAddr s l hr
  refine ⟨?_, ?_⟩
  · rw [hrun]
    exact (Run.run_append _ _ _ _).symm
  · rw [hrun]
    apply Process.run_isServing
    exact Run.forall_emissions fun s x => calls_isServing F localAddr s x

end Server
end SfuKit
