import SfuKit.Library.Sweep
import SfuKit.Tracks.CrossAdvertisement

/-! # Pacer advances over whole runs

The proof rule for pacers. What the history says about the advances of one client,
about the deliveries and about the estimator's entries is an invariant of every run
once it is checked for one reading, one delivery and one feedback batch.
-/
namespace SfuKit

open Library Library.Announcement

/-- A reading a pacer took, as the history records it. -/
structure Advance where
  now : Instant
  bps : ℕ
  action : PacerAction
  signals : Option PerSubscriber

def Obs.advanceOf (id : ClientId) : Obs → Option Advance
  | .advance peer now bps action signals =>
    if peer = id then some ⟨now, bps, action, signals⟩ else none
  | .delivery .. | .sample .. => none

/-- The advances of client `id`, oldest first. -/
def advances (id : ClientId) (h : List Obs) : List Advance := h.filterMap (Obs.advanceOf id)

@[simp] theorem advances_append (id : ClientId) (h h' : List Obs) :
    advances id (h ++ h') = advances id h ++ advances id h' := List.filterMap_append

theorem advances_concat (id : ClientId) (h : List Obs) (o : Obs) :
    advances id (h ++ [o]) = advances id h ++ (o.advanceOf id).toList := by
  rw [advances_append]
  cases ho : o.advanceOf id <;> simp [advances, ho]

@[simp] theorem advanceOf_self (id : ClientId) (now : Instant) (bps : ℕ) (action : PacerAction)
    (signals : Option PerSubscriber) :
    (Obs.advance id now bps action signals).advanceOf id = some ⟨now, bps, action, signals⟩ :=
  if_pos rfl

theorem advanceOf_ne {peer id : ClientId} (h : peer ≠ id) (now : Instant) (bps : ℕ)
    (action : PacerAction) (signals : Option PerSubscriber) :
    (Obs.advance peer now bps action signals).advanceOf id = none :=
  if_neg h

def Obs.peer : Obs → ClientId
  | .advance peer .. => peer
  | .delivery before .. => before.id
  | .sample peer .. => peer

theorem advances_of_peer_ne {id : ClientId} {b : List Obs} (h : ∀ o ∈ b, o.peer ≠ id) :
    advances id b = [] := by
  rw [advances, List.filterMap_eq_nil_iff]
  intro o ho
  have hne := h o ho
  cases o with
  | advance peer now bps action signals => exact if_neg hne
  | delivery | sample => rfl

/-- The mode changes that the history says were put on the queue, in order. -/
def emitted (h : List Obs) : List Propagated := h.filterMap Obs.emits

@[simp] theorem emitted_append (h h' : List Obs) : emitted (h ++ h') = emitted h ++ emitted h' :=
  List.filterMap_append

theorem isMode_of_emitted {h : List Obs} {e : Propagated} (he : e ∈ emitted h) :
    e.isMode = true := by
  obtain ⟨o, -, ho⟩ := List.mem_filterMap.mp he
  cases o with
  | advance peer now bps action signals =>
    cases action <;> simp [Obs.emits, applyPacerAction] at ho <;> rw [← ho] <;> rfl
  | delivery | sample => cases ho

def modeEvents (q : List Propagated) : List Propagated := q.filter Propagated.isMode

@[simp] theorem modeEvents_append (q q' : List Propagated) :
    modeEvents (q ++ q') = modeEvents q ++ modeEvents q' := List.filter_append ..

/-- The pacer, its tick floor and the suspended-state filter are as they were, and a new
track is one that `K` allows. -/
structure SamePacing (K : ClientId → SfuMid → MediaKind → Prop) (c c' : Client) : Prop where
  id : c'.id = c.id
  pacer : c'.pacer = c.pacer
  suspended : c'.suspended = c.suspended
  lastPacerDrive : c'.lastPacerDrive = c.lastPacerDrive
  arcs : ∀ a ∈ c'.arcs, a ∈ c.arcs ∨ K a.track.origin a.track.mid a.track.kind

/-- The media lines that a call opens are among those `K` allows. -/
def Op.Opens (K : ClientId → SfuMid → MediaKind → Prop) : Op → Prop
  | .pollAll _ feed => ∀ id, ∀ x ∈ feed id, ∀ mid kind,
      x.2 = some (.event (.mediaAdded mid kind)) → K id mid kind
  | .heldPoll id _ result => ∀ mid kind, result = some (.event (.mediaAdded mid kind)) → K id mid kind
  | _ => True

theorem Op.opens_of_forall {K : ClientId → SfuMid → MediaKind → Prop}
    (h : ∀ id mid kind, K id mid kind) (op : Op) : op.Opens K := by
  cases op with
  | pollAll now feed => exact fun id _ _ mid kind _ => h id mid kind
  | heldPoll id clock result => exact fun mid kind _ => h id mid kind
  | _ => trivial

/-- What every operation on an entry of the estimator keeps. -/
structure EntryInvariant (B : PerSubscriber → Prop) : Prop where
  new : B .new
  twcc : ∀ s feedback now, B s → B (ingestTwcc s feedback now)
  sendTime : ∀ s seq sentAt, B s → B { s with sendTimes := recordSendTimes s.sendTimes seq sentAt }
  native : ∀ s bps, B s → B { s with nativeEstimateBps := bps }
  hint : ∀ s hint, B s → B { s with clientHint := hint }
  enable : ∀ s, B s → B { s with googcc := some (s.googcc.getD .new) }
  receive : ∀ s arrival send loss, B s →
    B { s with googcc := s.googcc.map fun g => (g.onReceive arrival send loss).1 }

theorem EntryInvariant.of_true : EntryInvariant fun _ => True :=
  ⟨trivial, fun _ _ _ _ => trivial, fun _ _ _ _ => trivial, fun _ _ _ => trivial,
    fun _ _ _ => trivial, fun _ _ => trivial, fun _ _ _ _ _ => trivial⟩

/-- Where a pacer's reading comes from: the combined estimate of an entry, past the tick
floor, or, in builds that have none, the native estimate alone. -/
def Reading (F : Features) (B : PerSubscriber → Prop) (c : Client) (now : Instant) (bps : ℕ) :
    Option PerSubscriber → Prop
  | some s => c.TickDue now ∧ B s ∧ bps = asU64 (s.combinedBps now)
  | none => F.pollAllDrives = true

/-- The client that takes the reading: a combined estimate has its instant taken down. -/
def Client.ticked (c : Client) (now : Instant) : Option PerSubscriber → Client
  | some _ => { c with lastPacerDrive := some now }
  | none => c

@[simp] theorem Client.ticked_id (c : Client) (now : Instant) (signals : Option PerSubscriber) :
    (c.ticked now signals).id = c.id := by cases signals <;> rfl

@[simp] theorem Client.ticked_pacer (c : Client) (now : Instant) (signals : Option PerSubscriber) :
    (c.ticked now signals).pacer = c.pacer := by cases signals <;> rfl

@[simp] theorem Client.ticked_suspended (c : Client) (now : Instant)
    (signals : Option PerSubscriber) : (c.ticked now signals).suspended = c.suspended := by
  cases signals <;> rfl

@[simp] theorem Client.ticked_arcs (c : Client) (now : Instant) (signals : Option PerSubscriber) :
    (c.ticked now signals).arcs = c.arcs := by cases signals <;> rfl

/-- The obligations of a property `Q` of each client and its advances, and a property `G`
of the history, in runs whose tracks `K` allows. -/
structure PacerInvariant (F : Features) (K : ClientId → SfuMid → MediaKind → Prop)
    (B : PerSubscriber → Prop) (Q : Client → List Advance → Prop) (G : List Obs → Prop) :
    Prop where
  entry : EntryInvariant B
  new : ∀ id rtc metrics, Q (Client.new id rtc metrics).1 []
  frame : ∀ {c c'} l, SamePacing K c c' → Q c l → Q c' l
  advance : ∀ c now bps signals l, Reading F B c now bps signals → Q c l →
    Q (driveReading (c.ticked now signals) now bps signals).client
      (l ++ [⟨now, bps, (c.pacer.update bps).2, signals⟩])
  log_nil : G []
  log_advance : ∀ c now bps signals h, Reading F B c now bps signals → Q c (advances c.id h) →
    G h → G (h ++ [.advance c.id now bps (c.pacer.update bps).2 signals])
  log_delivery : ∀ c heap origin data h, (∀ a ∈ heap, ∃ d l, Q d l ∧ a ∈ d.arcs) →
    Q c (advances c.id h) → G h →
    G (h ++ [.delivery c (c.handleMediaDataOut heap origin data).1 heap origin data])
  log_sample : ∀ id arrival send h, G h → G (h ++ [.sample id arrival send])

namespace SamePacing
variable {K : ClientId → SfuMid → MediaKind → Prop} {c c' : Client}

theorem of_arcs_eq (hid : c'.id = c.id) (hp : c'.pacer = c.pacer) (hs : c'.suspended = c.suspended)
    (hl : c'.lastPacerDrive = c.lastPacerDrive) (ha : c'.arcs = c.arcs) : SamePacing K c c' :=
  ⟨hid, hp, hs, hl, fun _ h => .inl (ha ▸ h)⟩

theorem refl (c : Client) : SamePacing K c c := of_arcs_eq rfl rfl rfl rfl rfl

theorem pollOutput (c : Client) (heap : List ArcTrack) (addr : WeakTrack) (now : Instant)
    {x : PollResult} (hx : ∀ mid kind, x = some (.event (.mediaAdded mid kind)) → K c.id mid kind) :
    SamePacing K c (c.pollOutput heap addr now x).1 := by
  have hsame : (c.pollOutput heap addr now x).1.id = c.id ∧
      (c.pollOutput heap addr now x).1.pacer = c.pacer ∧
      (c.pollOutput heap addr now x).1.suspended = c.suspended ∧
      (c.pollOutput heap addr now x).1.lastPacerDrive = c.lastPacerDrive := by
    obtain ⟨_, _, _, _, h⟩ := c.pollOutput_eq heap addr now x
    rw [h]
    exact ⟨rfl, rfl, rfl, rfl⟩
  refine ⟨hsame.1, hsame.2.1, hsame.2.2.1, hsame.2.2.2, fun a ha => ?_⟩
  rcases c.pollOutput_arcs heap addr now x with ⟨mid, kind, hmid, harcs, -⟩ | ⟨harcs, -⟩
  · rw [harcs, List.mem_append, List.mem_singleton] at ha
    refine ha.imp_right ?_
    rintro rfl
    exact hx mid kind hmid
  · exact .inl (harcs ▸ ha)

theorem fanoutClient (c : Client) (heap : List ArcTrack) (now : Instant) (p : Propagated) :
    SamePacing K c (fanoutClient heap now p c).1 := by
  cases p with
  | mediaData origin data =>
    obtain ⟨_, _, _, h⟩ := c.handleMediaDataOut_eq heap origin data
    simp only [SfuKit.fanoutClient]
    split_ifs
    · exact refl c
    · rw [h]; exact of_arcs_eq rfl rfl rfl rfl rfl
  | keyframeRequest origin req source mid =>
    simp only [SfuKit.fanoutClient, Client.handleKeyframeRequest]
    repeat' split
    all_goals exact of_arcs_eq rfl rfl rfl rfl rfl
  | trackOpen origin w =>
    simp only [SfuKit.fanoutClient]
    split_ifs <;> exact of_arcs_eq rfl rfl rfl rfl rfl
  | activeSpeakerChanged peer conf =>
    simp only [SfuKit.fanoutClient]
    split_ifs <;> exact of_arcs_eq rfl rfl rfl rfl rfl
  | _ => exact refl c

theorem insert {D : Type*} [ActiveSpeakerDetector D] (F : Features) (now : Instant)
    (r : Registry D) (c : Client) : SamePacing K c
      (r.registerSpeaker F now (r.announceExisting { c with metrics := .registry })).1 := by
  rw [Registry.announceExisting_eq, Registry.registerSpeaker]
  split_ifs <;> exact of_arcs_eq rfl rfl rfl rfl rfl

end SamePacing

namespace BandwidthEstimator
variable {B : PerSubscriber → Prop}

def Entries (B : PerSubscriber → Prop) (b : BandwidthEstimator) : Prop :=
  ∀ id s, b.subscribers.lookup id = some s → B s

theorem entries_new : new.Entries B := by
  intro id s h
  cases h

theorem Entries.modify {b : BandwidthEstimator} (h : b.Entries B) (hnew : B .new) (id : ClientId)
    {f : PerSubscriber → PerSubscriber} (hf : ∀ s, B s → B (f s)) : (b.modify id f).Entries B := by
  intro other s hs
  rw [lookup_modify] at hs
  split_ifs at hs with hid
  · obtain rfl := Option.some.inj hs
    apply hf
    unfold getOrInsert
    cases hl : b.subscribers.lookup id with
    | none => exact hnew
    | some s => exact h id s hl
  · exact h other s hs

theorem Entries.reapDead {b : BandwidthEstimator} (h : b.Entries B) (id : ClientId) :
    (b.reapDead id).Entries B := by
  intro other s hs
  rw [lookup_reapDead] at hs
  split_ifs at hs
  exact h other s hs

theorem Entries.receive {b : BandwidthEstimator} (h : b.Entries B) (inv : EntryInvariant B)
    (id : ClientId) (arrival send loss : ℚ) : (b.googccOnReceive id arrival send loss).Entries B := by
  intro other s hs
  rw [lookup_googccOnReceive] at hs
  split_ifs at hs
  · obtain ⟨s', hs', rfl⟩ := Option.map_eq_some_iff.mp hs
    exact inv.receive s' arrival send loss (h id s' hs')
  · exact h other s hs

end BandwidthEstimator

/-- A drive puts on the queue what it leaves in the history. -/
theorem emitted_driveReading (c : Client) (now : Instant) (bps : ℕ)
    (signals : Option PerSubscriber) :
    emitted (driveReading c now bps signals).history =
      (driveReading c now bps signals).events := by
  rw [driveReading_events, driveReading_history]
  cases hact : (c.pacer.update bps).2 <;> simp [emitted, Obs.emits, applyPacerAction]

theorem emitted_driveSubscriber (c : Client) (now : Instant) (b : BandwidthEstimator)
    (origin : ClientId) : emitted (driveSubscriber b origin now c).history =
      (driveSubscriber b origin now c).events := by
  rcases driveSubscriber_cases c now b origin with ⟨-, h, hh⟩ | ⟨s, -, -, -, -, h, hh⟩
  · rw [h, hh]
    rfl
  · rw [h, hh]
    exact emitted_driveReading _ now _ _

/-- In a pass over clients each of which reports on itself, a client's advances are its own. -/
theorem advances_flatMap {l : List Client} (hnodup : (l.map fun c => c.id).Nodup)
    {f : Client → List Obs} (hf : ∀ c, ∀ o ∈ f c, o.peer = c.id) {c : Client} (hc : c ∈ l) :
    advances c.id (l.flatMap f) = advances c.id (f c) := by
  induction l with
  | nil => cases hc
  | cons d rest ih =>
    obtain ⟨hd, hrest⟩ := List.nodup_cons.mp hnodup
    rw [List.flatMap_cons, advances_append]
    rcases List.mem_cons.mp hc with rfl | hc
    · have hnone : advances c.id (rest.flatMap f) = [] := by
        refine advances_of_peer_ne fun o ho heq => ?_
        obtain ⟨e, he, ho⟩ := List.mem_flatMap.mp ho
        rw [hf e o ho] at heq
        exact hd (List.mem_map.mpr ⟨e, he, heq⟩)
      rw [hnone, List.append_nil]
    · have hnone : advances c.id (f d) = [] := by
        refine advances_of_peer_ne fun o ho heq => ?_
        rw [hf d o ho] at heq
        exact hd (List.mem_map.mpr ⟨c, hc, heq.symm⟩)
      rw [hnone, List.nil_append]
      exact ih hrest hc

theorem driveSubscriber_peer (c : Client) (now : Instant) (b : BandwidthEstimator)
    (origin : ClientId) : ∀ o ∈ (driveSubscriber b origin now c).history, o.peer = c.id := by
  intro o ho
  rcases driveSubscriber_cases c now b origin with ⟨-, -, hh⟩ | ⟨s, -, -, -, -, -, hh⟩
  · rw [hh] at ho
    cases ho
  · rw [hh, driveReading_history, List.mem_singleton] at ho
    rw [ho]
    rfl

theorem updatePacerLayers_clients {D : Type*} (r : Registry D) (origin : ClientId) (now : Instant) :
    (r.updatePacerLayers origin now).clients =
      r.clients.map fun c => (driveSubscriber r.bandwidth origin now c).client := by
  simp [Registry.updatePacerLayers]

theorem updatePacerLayers_history {D : Type*} (r : Registry D) (origin : ClientId) (now : Instant) :
    (r.updatePacerLayers origin now).history = r.history ++
      r.clients.flatMap fun c => (driveSubscriber r.bandwidth origin now c).history := by
  simp [Registry.updatePacerLayers, List.flatMap_map]

namespace Registry
variable {D : Type*}

/-- What is new on the queue of `r'` are the mode changes that are new in its history. -/
def QueuesLogged (r r' : Registry D) : Prop :=
  ∃ events, r'.toPropagate = r.toPropagate ++ events ∧
    emitted r'.history = emitted r.history ++ events

theorem updatePacerLayers_queuesLogged (r : Registry D) (origin : ClientId) (now : Instant) :
    r.QueuesLogged (r.updatePacerLayers origin now) := by
  refine ⟨r.clients.flatMap fun c => (driveSubscriber r.bandwidth origin now c).events, ?_, ?_⟩
  · simp [updatePacerLayers, List.flatMap_map]
  · rw [updatePacerLayers_history, emitted_append, emitted, emitted, List.filterMap_flatMap]
    congr 1
    exact List.flatMap_congr fun c _ => emitted_driveSubscriber c now r.bandwidth origin

theorem driveAt_queuesLogged (r : Registry D) (i : ℕ) (c : Client) (now : Instant) (bps : ℕ)
    (signals : Option PerSubscriber) :
    r.QueuesLogged (r.driveAt i (driveReading c now bps signals)) := by
  refine ⟨(driveReading c now bps signals).events, rfl, ?_⟩
  rw [← emitted_driveReading, ← emitted_append]
  rfl

end Registry

theorem deliveries_peer (heap : List ArcTrack) (c : Client) (p : Propagated) :
    ∀ o ∈ deliveries heap [c] p, o.peer = c.id := by
  intro o ho
  cases p with
  | mediaData origin data =>
    simp only [deliveries, List.mem_map, List.mem_filter, List.mem_singleton] at ho
    obtain ⟨c, ⟨rfl, -⟩, rfl⟩ := ho
    rfl
  | _ => cases ho

@[simp] theorem emitted_deliveries (heap : List ArcTrack) (l : List Client) (p : Propagated) :
    emitted (deliveries heap l p) = [] := by
  cases p with
  | mediaData origin data =>
    rw [emitted, deliveries, List.filterMap_map, List.filterMap_eq_nil_iff]
    intro c _
    rfl
  | _ => rfl

theorem advances_deliveries (id : ClientId) (heap : List ArcTrack) (l : List Client)
    (p : Propagated) : advances id (deliveries heap l p) = [] := by
  cases p with
  | mediaData origin data =>
    rw [advances, deliveries, List.filterMap_map, List.filterMap_eq_nil_iff]
    intro c _
    rfl
  | _ => rfl

namespace PacerInvariant

/-- What an operation on the registry that starts from `r₀` keeps. -/
structure Kept {D : Type*} (B : PerSubscriber → Prop) (Q : Client → List Advance → Prop)
    (G : List Obs → Prop) (r₀ r : Registry D) : Prop where
  clients : ∀ c ∈ r.clients, Q c (advances c.id r.history)
  log : G r.history
  entries : r.bandwidth.Entries B
  queued : modeEvents r.toPropagate <:+ emitted r.history
  ids : r.ids = r₀.ids
  away : ∀ id, id ∉ r₀.ids → advances id r.history = advances id r₀.history

variable {D : Type*} {F : Features} {K : ClientId → SfuMid → MediaKind → Prop}
  {B : PerSubscriber → Prop} {Q : Client → List Advance → Prop} {G : List Obs → Prop}
  {r₀ r : Registry D}

theorem Kept.of_entries {r' : Registry D} (h : Kept B Q G r₀ r) (hc : r'.clients = r.clients)
    (hh : r'.history = r.history) (hb : r'.bandwidth.Entries B)
    (hq : modeEvents r'.toPropagate <:+ modeEvents r.toPropagate) : Kept B Q G r₀ r' where
  clients := by rw [hc, hh]; exact h.clients
  log := by rw [hh]; exact h.log
  entries := hb
  queued := by rw [hh]; exact hq.trans h.queued
  ids := by rw [← h.ids, Registry.ids, Registry.ids, hc]
  away := by rw [hh]; exact h.away

theorem Kept.of_eq {r' : Registry D} (h : Kept B Q G r₀ r) (hc : r'.clients = r.clients)
    (hh : r'.history = r.history) (hb : r'.bandwidth = r.bandwidth)
    (hq : modeEvents r'.toPropagate <:+ modeEvents r.toPropagate) : Kept B Q G r₀ r' :=
  h.of_entries hc hh (by rw [hb]; exact h.entries) hq

theorem Kept.queued_append (h : Kept B Q G r₀ r) {r' : Registry D} (hnew : r.QueuesLogged r') :
    modeEvents r'.toPropagate <:+ emitted r'.history := by
  obtain ⟨popped, hpopped⟩ := h.queued
  obtain ⟨events, hq, hh⟩ := hnew
  have hevents : modeEvents events = events := by
    refine List.filter_eq_self.mpr fun e he => ?_
    have hlog : e ∈ emitted r'.history := by
      rw [hh]
      exact List.mem_append_right _ he
    exact isMode_of_emitted hlog
  refine ⟨popped, ?_⟩
  rw [hq, hh, modeEvents_append, hevents, ← List.append_assoc, hpopped]

variable (inv : PacerInvariant F K B Q G)
include inv

theorem drive {c : Client} {now : Instant} {bps : ℕ} {signals : Option PerSubscriber}
    (hr : Reading F B c now bps signals) {h : List Obs} (hQ : Q c (advances c.id h)) (hG : G h) :
    Q (driveReading (c.ticked now signals) now bps signals).client
        (advances c.id (h ++ (driveReading (c.ticked now signals) now bps signals).history)) ∧
      G (h ++ (driveReading (c.ticked now signals) now bps signals).history) := by
  rw [driveReading_history, Client.ticked_id, Client.ticked_pacer]
  refine ⟨?_, inv.log_advance c now bps signals h hr hQ hG⟩
  rw [advances_concat, advanceOf_self]
  exact inv.advance c now bps signals _ hr hQ

theorem kept_updatePacerLayers (hnodup : r₀.ids.Nodup) (h : Kept B Q G r₀ r) (origin : ClientId)
    (now : Instant) : Kept B Q G r₀ (r.updatePacerLayers origin now) := by
  have hids : (r.clients.map fun c => c.id).Nodup := by
    rw [← h.ids] at hnodup
    exact hnodup
  have hkey : ∀ c, (driveSubscriber r.bandwidth origin now c).client.id = c.id := fun c =>
    congrArg Prod.fst (driveSubscriber_badge c now r.bandwidth origin)
  have howner := fun c => driveSubscriber_peer c now r.bandwidth origin
  have hsweep := Sweep.invariant (fun c : Client => c.id) Obs.peer
    (fun c => (driveSubscriber r.bandwidth origin now c).client)
    (fun c => (driveSubscriber r.bandwidth origin now c).history)
    (R := fun c l => Q c (advances c.id l)) (G := G) hkey howner
    (fun c l o ho hc => by
      rw [advances_append, advances_of_peer_ne (b := [o]) (by simpa using ho), List.append_nil]
      exact hc)
    (l := r.clients) ?_ hids h.clients h.log
  · have hhist := updatePacerLayers_history r origin now
    refine ⟨?_, ?_, h.entries, ?_, ?_, fun id hid => ?_⟩
    · rw [updatePacerLayers_clients, hhist]
      exact hsweep.1
    · rw [hhist]
      exact hsweep.2
    · exact h.queued_append (r.updatePacerLayers_queuesLogged origin now)
    · rw [← h.ids]
      exact Registry.ids_of_badges (Registry.updatePacerLayers_badges now r origin)
    · rw [← h.away id hid, hhist, advances_append, List.append_right_eq_self]
      refine advances_of_peer_ne fun o ho heq => ?_
      obtain ⟨c, hc, ho⟩ := List.mem_flatMap.mp ho
      rw [howner c o ho] at heq
      rw [← h.ids] at hid
      exact hid (heq ▸ List.mem_map_of_mem hc)
  · intro c _ l hc hl
    rcases driveSubscriber_cases c now r.bandwidth origin with
      ⟨hcl, -, hh⟩ | ⟨s, hs, -, hdue, hcl, -, hh⟩
    · rw [hcl, hh, List.append_nil]
      exact ⟨hc, hl⟩
    · have hread : Reading F B c now (asU64 (s.combinedBps now)) (some s) :=
        ⟨hdue, h.entries c.id s hs, rfl⟩
      obtain ⟨hQ, hG⟩ := inv.drive hread hc hl
      rw [hkey, hcl, hh]
      exact ⟨hQ, hG⟩

theorem kept_fanout (hnodup : r₀.ids.Nodup) (h : Kept B Q G r₀ r) (now : Instant) (p : Propagated) :
    Kept B Q G r₀ (r.fanout now p) := by
  have hids : (r.clients.map fun c => c.id).Nodup := by
    rw [← h.ids] at hnodup
    exact hnodup
  have hsweep := Sweep.invariant (fun c : Client => c.id) Obs.peer
    (fun c => (fanoutClient r.heap now p c).1) (fun c => deliveries r.heap [c] p)
    (R := fun c l => Q c (advances c.id l)) (G := G)
    (fun c => (SamePacing.fanoutClient (K := K) c r.heap now p).id) (fun c => deliveries_peer r.heap c p)
    (fun c l o ho hc => by
      rw [advances_append, advances_of_peer_ne (b := [o]) (by simpa using ho), List.append_nil]
      exact hc)
    (l := r.clients) ?_ hids h.clients h.log
  · have hhist : (r.fanout now p).history =
        r.history ++ r.clients.flatMap fun c => deliveries r.heap [c] p := by
      rw [← deliveries_eq]
      exact Registry.fanout_history now r p
    refine ⟨?_, ?_, h.entries, ?_, ?_, fun id hid => ?_⟩
    · rw [hhist]
      exact hsweep.1
    · rw [hhist]
      exact hsweep.2
    · rw [hhist, ← deliveries_eq, emitted_append, emitted_deliveries, List.append_nil]
      exact h.queued
    · rw [← h.ids]
      exact Registry.ids_of_badges (Registry.fanout_badges now r p)
    · rw [← h.away id hid, hhist, ← deliveries_eq, advances_append, advances_deliveries,
        List.append_nil]
  · intro c _ l hc hl
    have hsame : SamePacing K c (fanoutClient r.heap now p c).1 := .fanoutClient c r.heap now p
    have hheap : ∀ a ∈ r.heap, ∃ d l, Q d l ∧ a ∈ d.arcs := by
      intro a ha
      obtain ⟨d, hd, had⟩ := List.mem_flatMap.mp ha
      exact ⟨d, _, h.clients d hd, had⟩
    rw [hsame.id, advances_append, advances_deliveries, List.append_nil]
    refine ⟨inv.frame _ hsame hc, ?_⟩
    cases p with
    | mediaData origin data =>
      by_cases ho : c.id = origin
      · simpa [deliveries, ho] using hl
      · simpa [deliveries, ho] using inv.log_delivery c r.heap origin data l hheap hc hl
    | _ => simpa [deliveries] using hl

theorem kept_fanoutStep (hnodup : r₀.ids.Nodup) (h : Kept B Q G r₀ r) (now : Instant) :
    Kept B Q G r₀ (r.fanoutStep F now) := by
  unfold Registry.fanoutStep
  cases hq : r.toPropagate with
  | nil => exact h
  | cons p rest =>
    have hpop : Kept B Q G r₀ { r with toPropagate := rest } :=
      h.of_eq rfl rfl rfl (by
        rw [hq]
        exact (List.suffix_cons p rest).filter _)
    cases p with
    | clientBudgetHint peer bps =>
      simp only [Registry.fanoutEvent]
      split_ifs
      · exact hpop.of_entries rfl rfl
          (h.entries.modify inv.entry.new peer fun s => inv.entry.hint s _) List.suffix_rfl
      · exact inv.kept_fanout hnodup hpop now _
    | mediaData origin data =>
      simp only [Registry.fanoutEvent]
      split_ifs
      · exact inv.kept_fanout hnodup (inv.kept_updatePacerLayers hnodup hpop origin now) now _
      · exact inv.kept_fanout hnodup hpop now _
    | _ => exact inv.kept_fanout hnodup hpop now _

theorem kept_fanoutPending (hnodup : r₀.ids.Nodup) (h : Kept B Q G r₀ r) (now : Instant) :
    Kept B Q G r₀ (r.fanoutPending F now) :=
  Registry.fanoutPending_invariant F now (P := Kept B Q G r₀)
    (fun _ hs => inv.kept_fanoutStep hnodup hs now) h

theorem Kept.set (h : Kept B Q G r₀ r) {i : ℕ} {c c' : Client} (hc : r.clients[i]? = some c)
    (hs : SamePacing K c c') : Kept B Q G r₀ { r with clients := r.clients.set i c' } where
  clients d hd := by
    rcases List.mem_or_eq_of_mem_set hd with hd | rfl
    · exact h.clients d hd
    · rw [hs.id]
      exact inv.frame _ hs (h.clients c (List.mem_of_getElem? hc))
  log := h.log
  entries := h.entries
  queued := h.queued
  ids := by
    rw [← h.ids]
    exact map_set_eq _ _ hc hs.id
  away := h.away

/-- The drive site of builds without `kalman-bwe`. -/
theorem Kept.driveAt (hnodup : r₀.ids.Nodup) (h : Kept B Q G r₀ r) {i : ℕ} {c : Client}
    (hc : r.clients[i]? = some c) (hF : F.pollAllDrives = true) (now : Instant) (bps : ℕ) :
    Kept B Q G r₀ (r.driveAt i (driveReading c now bps none)) := by
  have hmem := List.mem_of_getElem? hc
  have hread : Reading F B c now bps none := hF
  obtain ⟨hQ, hG⟩ := inv.drive hread (h.clients c hmem) h.log
  have hid : (driveReading c now bps none).client.id = c.id :=
    congrArg Prod.fst (driveReading_badge c now bps none)
  have hids : (r.clients.map fun c => c.id).Nodup := by
    rw [← h.ids] at hnodup
    exact hnodup
  have haway : ∀ id, id ≠ c.id → advances id (driveReading c now bps none).history = [] := by
    intro id hne
    rw [driveReading_history]
    exact advances_of_peer_ne (by simpa [Obs.peer] using hne.symm)
  refine ⟨fun d hd => ?_, hG, h.entries,
    h.queued_append (r.driveAt_queuesLogged i c now bps none), ?_, fun id hid => ?_⟩
  · obtain ⟨j, hj⟩ := List.mem_iff_getElem?.mp hd
    simp only [Registry.driveAt, List.getElem?_set] at hj ⊢
    split_ifs at hj with hij hlt
    · obtain rfl := Option.some.inj hj
      rw [hid]
      exact hQ
    · have hne : d.id ≠ c.id := by
        intro heq
        have hlt : i < (r.clients.map fun c => c.id).length := by
          rw [List.length_map]
          exact (List.getElem?_eq_some_iff.mp hc).1
        refine hij ((List.getElem?_inj hlt hids).mp ?_)
        rw [List.getElem?_map, List.getElem?_map, hc, hj]
        exact congrArg some heq.symm
      rw [advances_append, haway d.id hne, List.append_nil]
      exact h.clients d (List.mem_of_getElem? hj)
  · rw [← h.ids]
    exact map_set_eq _ _ hc hid
  · simp only [Registry.driveAt]
    rw [advances_append, h.away id hid, haway, List.append_nil]
    rintro rfl
    rw [← h.ids] at hid
    exact hid (List.mem_map_of_mem hmem)

section Poll
variable [ActiveSpeakerDetector D]

theorem kept_pollStep (hnodup : r₀.ids.Nodup) (now : Instant) (i : ℕ) (st : PollState D)
    (x : Instant × PollResult) (hx : ∀ c, st.reg.clients[i]? = some c → ∀ mid kind,
      x.2 = some (.event (.mediaAdded mid kind)) → K c.id mid kind) (h : Kept B Q G r₀ st.reg) :
    Kept B Q G r₀ (Registry.pollStep F now i st x).1.reg := by
  unfold Registry.pollStep
  cases hc : st.reg.clients[i]? with
  | none => exact h
  | some c =>
    dsimp only
    split_ifs with ha
    · have hsame := SamePacing.pollOutput c st.reg.heap st.nextAlloc x.1 (hx c hc)
      have hpolled := c.pollOutput_polled st.reg.heap st.nextAlloc x.1 x.2
      generalize c.pollOutput st.reg.heap st.nextAlloc x.1 x.2 = q at hsame hpolled
      obtain ⟨c', p, calls⟩ := q
      have hpush : ∀ r' : Registry D, r'.toPropagate = st.reg.toPropagate →
          modeEvents (r'.push p).toPropagate <:+ modeEvents st.reg.toPropagate := by
        intro r' hr'
        have hmode : p.isMode = false := by cases hpolled <;> rfl
        rw [Registry.push, hr', modeEvents_append]
        simp [modeEvents, hmode]
      have hset := Kept.set inv h hc hsame
      have hget : (st.reg.clients.set i c')[i]? = some c' := by
        rw [List.getElem?_set_self (List.getElem?_eq_some_iff.mp hc).1]
      cases p with
      | bandwidthEstimate peer bps =>
        simp only [Registry.handlePolled]
        split_ifs with hl hd
        · exact hset.of_entries rfl rfl
            (h.entries.modify inv.entry.new peer fun s => inv.entry.native s _) (hpush _ rfl)
        · have hpushed : Kept B Q G r₀
              (({ st.reg with clients := st.reg.clients.set i c' }).push (.bandwidthEstimate peer bps)) :=
            hset.of_eq rfl rfl rfl (hpush _ rfl)
          exact (Kept.driveAt inv hnodup hpushed hget hd x.1 bps).of_eq rfl rfl rfl List.suffix_rfl
        · exact hset.of_eq rfl rfl rfl (hpush _ rfl)
      | noop => exact hset.of_eq rfl rfl rfl List.suffix_rfl
      | timeout t => exact hset.of_eq rfl rfl rfl List.suffix_rfl
      | rtcpStats peer stats => exact hset.of_eq rfl rfl rfl (hpush _ rfl)
      | _ =>
        simp only [Registry.handlePolled]
        obtain ⟨_, hlevel⟩ := Registry.recordPolledLevel_eq F x.1 c'
          { st.reg with clients := st.reg.clients.set i c'
                        metrics := st.reg.metrics.calls calls } _
        rw [hlevel]
        exact hset.of_eq rfl rfl rfl (hpush _ rfl)
    · exact h

theorem kept_pollAll (hnodup : r₀.ids.Nodup) (h : Kept B Q G r₀ r) {now : Instant} {feed : Feed}
    (hfeed : (Op.pollAll now feed).Opens K) (nextAlloc : WeakTrack) :
    Kept B Q G r₀ (r.pollAll F now feed nextAlloc).reg := by
  refine Registry.pollAll_invariant F now feed (P := fun st => Kept B Q G r₀ st.reg)
    (fun i st c x hc _ hx hst => inv.kept_pollStep hnodup now i st x (fun d hd => ?_) hst) ?_ h
  · obtain rfl := Option.some.inj (hc.symm.trans hd)
    exact hfeed c.id x hx
  intro st arrival send hst
  have hfeed : ∀ (l : List Client) (b : BandwidthEstimator), b.Entries B →
      (l.foldl (fun b c => b.googccOnReceive c.id arrival send 0) b).Entries B := by
    intro l
    induction l with
    | nil => exact fun _ hb => hb
    | cons c rest ih => exact fun b hb => ih _ (hb.receive inv.entry c.id arrival send 0)
  have hsamples : ∀ (l : List Client) (h : List Obs), G h →
      G (h ++ l.map fun c => .sample c.id arrival send) := by
    intro l
    induction l with
    | nil => intro h hG; simpa using hG
    | cons c rest ih =>
      intro h hG
      simpa using ih _ (inv.log_sample c.id arrival send h hG)
  have hnone : ∀ (id : ClientId) (l : List Client),
      advances id (l.map fun c => .sample c.id arrival send) = [] := by
    intro id l
    rw [advances, List.filterMap_map, List.filterMap_eq_nil_iff]
    intro c _
    rfl
  have hquiet : emitted ((st.reg.clients.filter fun c => st.reg.bandwidth.googccActive c.id).map
      fun c => .sample c.id arrival send) = [] := by
    rw [emitted, List.filterMap_map, List.filterMap_eq_nil_iff]
    intro c _
    rfl
  refine ⟨fun c hc => ?_, hsamples _ _ hst.log, hfeed _ _ hst.entries, ?_, hst.ids,
    fun id hid => ?_⟩
  · simp only [Registry.feedGoogcc]
    rw [advances_append, hnone, List.append_nil]
    exact hst.clients c hc
  · simp only [Registry.feedGoogcc]
    rw [emitted_append, hquiet, List.append_nil]
    exact hst.queued
  · simp only [Registry.feedGoogcc]
    rw [advances_append, hnone, List.append_nil]
    exact hst.away id hid

end Poll

end PacerInvariant

namespace Process
variable {D : Type*}

/-- The invariant of a run: registered clients and the history satisfy the properties, and
clients that are held or yet to be built have taken no readings. -/
structure Paced (B : PerSubscriber → Prop) (Q : Client → List Advance → Prop)
    (G : List Obs → Prop) (p : Process D) : Prop where
  clients : ∀ c ∈ p.reg.clients, Q c (advances c.id p.reg.history)
  log : G p.reg.history
  entries : p.reg.bandwidth.Entries B
  queued : modeEvents p.reg.toPropagate <:+ emitted p.reg.history
  held : ∀ c ∈ p.held, Q c [] ∧ advances c.id p.reg.history = []
  fresh : ∀ n, p.idCounter ≤ n → advances ⟨n⟩ p.reg.history = []

variable {F : Features} {K : ClientId → SfuMid → MediaKind → Prop} {B : PerSubscriber → Prop}
  {Q : Client → List Advance → Prop} {G : List Obs → Prop} {p q : Process D}

theorem Paced.kept (h : p.Paced B Q G) : PacerInvariant.Kept B Q G p.reg p.reg :=
  ⟨h.clients, h.log, h.entries, h.queued, rfl, fun _ _ => rfl⟩

/-- A mode change on the queue was emitted by an advance. -/
theorem Paced.exists_emits (h : p.Paced B Q G) {e : Propagated} (he : e ∈ p.reg.toPropagate)
    (hm : e.isMode = true) : ∃ o ∈ p.reg.history, o.emits = some e :=
  List.mem_filterMap.mp (h.queued.subset (List.mem_filter.mpr ⟨he, hm⟩))

open PacerInvariant in
theorem Paced.of_kept (h : p.Paced B Q G) (hr : p.room.WellFormed) (hk : Kept B Q G p.reg q.reg)
    (hheld : q.held = p.held) (hcounter : q.idCounter = p.idCounter) : q.Paced B Q G where
  clients := hk.clients
  log := hk.log
  entries := hk.entries
  queued := hk.queued
  held c hc := by
    rw [hheld] at hc
    rw [hk.away c.id (held_not_mem_ids hr hc)]
    exact h.held c hc
  fresh n hn := by
    rw [hcounter] at hn
    rw [hk.away _ (fresh_not_mem_ids hr hn)]
    exact h.fresh n hn

theorem Paced.of_entries (h : p.Paced B Q G) (hc : q.reg.clients = p.reg.clients)
    (hh : q.reg.history = p.reg.history) (hb : q.reg.bandwidth.Entries B)
    (hq : modeEvents q.reg.toPropagate <:+ modeEvents p.reg.toPropagate)
    (hheld : q.held = p.held) (hcounter : q.idCounter = p.idCounter) : q.Paced B Q G where
  clients := by rw [hc, hh]; exact h.clients
  log := by rw [hh]; exact h.log
  entries := hb
  queued := by rw [hh]; exact hq.trans h.queued
  held := by rw [hheld, hh]; exact h.held
  fresh := by rw [hcounter, hh]; exact h.fresh

theorem Paced.of_eq (h : p.Paced B Q G) (hc : q.reg.clients = p.reg.clients)
    (hh : q.reg.history = p.reg.history) (hb : q.reg.bandwidth = p.reg.bandwidth)
    (hq : modeEvents q.reg.toPropagate <:+ modeEvents p.reg.toPropagate)
    (hheld : q.held = p.held) (hcounter : q.idCounter = p.idCounter) : q.Paced B Q G :=
  h.of_entries hc hh (by rw [hb]; exact h.entries) hq hheld hcounter

theorem Paced.metricsCalls (h : p.Paced B Q G) (handle : MetricsHandle) (calls : List MetricCall) :
    (p.metricsCalls handle calls).Paced B Q G := by
  cases handle
  · exact h
  · exact h.of_eq rfl rfl rfl List.suffix_rfl rfl rfl

variable (inv : PacerInvariant F K B Q G)
include inv

theorem Paced.onClient (h : p.Paced B Q G) (id : ClientId) {f : Client → Client}
    (hf : ∀ c, SamePacing K c (f c)) : (p.onClient id f).Paced B Q G where
  clients c hc := by
    obtain ⟨d, hd, rfl⟩ := List.mem_map.mp hc
    dsimp only [Process.onClient]
    split_ifs
    · rw [(hf d).id]
      exact inv.frame _ (hf d) (h.clients d hd)
    · exact h.clients d hd
  log := h.log
  entries := h.entries
  queued := h.queued
  held c hc := by
    obtain ⟨d, hd, rfl⟩ := List.mem_map.mp hc
    obtain ⟨hQ, hnone⟩ := h.held d hd
    dsimp only [Process.onClient]
    split_ifs
    · rw [(hf d).id]
      exact ⟨inv.frame _ (hf d) hQ, hnone⟩
    · exact ⟨hQ, hnone⟩
  fresh := h.fresh

theorem Paced.held_set (h : p.Paced B Q G) {j : ℕ} {c c' : Client} (hj : p.held[j]? = some c)
    (hs : SamePacing K c c') (nextAlloc : WeakTrack) :
    ({ p with held := p.held.set j c', nextAlloc } : Process D).Paced B Q G where
  clients := h.clients
  log := h.log
  entries := h.entries
  queued := h.queued
  held d hd := by
    rcases List.mem_or_eq_of_mem_set hd with hd | rfl
    · exact h.held d hd
    · obtain ⟨hQ, hnone⟩ := h.held c (List.mem_of_getElem? hj)
      rw [hs.id]
      exact ⟨inv.frame _ hs hQ, hnone⟩
  fresh := h.fresh

omit inv in
theorem Paced.held_eraseIdx (h : p.Paced B Q G) (j : ℕ) :
    ({ p with held := p.held.eraseIdx j } : Process D).Paced B Q G :=
  { h with held := fun c hc => h.held c (List.mem_of_mem_eraseIdx hc) }

/-- A registered client is one that was held, with its pacer as it was. -/
theorem Paced.join (h : p.Paced B Q G) {j : ℕ} {c c' : Client} (hj : p.held[j]? = some c)
    (hs : SamePacing K c c') {r : Registry D} (hc : r.clients = p.reg.clients ++ [c'])
    (hh : r.history = p.reg.history) (hb : r.bandwidth = p.reg.bandwidth)
    (hq : r.toPropagate = p.reg.toPropagate) :
    ({ p with reg := r, held := p.held.eraseIdx j } : Process D).Paced B Q G where
  clients d hd := by
    dsimp only at hd ⊢
    rw [hc, List.mem_append, List.mem_singleton] at hd
    rw [hh]
    rcases hd with hd | rfl
    · exact h.clients d hd
    · obtain ⟨hQ, hnone⟩ := h.held c (List.mem_of_getElem? hj)
      rw [hs.id, hnone]
      exact inv.frame _ hs hQ
  log := by dsimp only; rw [hh]; exact h.log
  entries := by dsimp only; rw [hb]; exact h.entries
  queued := by dsimp only; rw [hh, hq]; exact h.queued
  held := by
    dsimp only
    rw [hh]
    exact fun d hd => h.held d (List.mem_of_mem_eraseIdx hd)
  fresh := by dsimp only; rw [hh]; exact h.fresh

theorem Paced.clientNew (h : p.Paced B Q G) (rtc : Rtc) (handle : MetricsHandle) :
    (p.clientNew rtc handle).Paced B Q G := by
  refine Paced.metricsCalls ?_ handle _
  refine ⟨h.clients, h.log, h.entries, h.queued, fun c hc => ?_,
    fun n hn => h.fresh n (Nat.le_of_succ_le hn)⟩
  rcases List.mem_append.mp hc with hc | hc
  · exact h.held c hc
  · obtain rfl := List.mem_singleton.mp hc
    exact ⟨inv.new ⟨p.idCounter⟩ rtc handle, h.fresh _ le_rfl⟩

variable [ActiveSpeakerDetector D]

theorem paced_start (now : Instant) : (start now : Process D).Paced B Q G where
  clients c hc := by cases hc
  log := inv.log_nil
  entries := BandwidthEstimator.entries_new
  queued := List.suffix_rfl
  held c hc := by cases hc
  fresh n _ := rfl

omit inv in
theorem Paced.reapDead (h : p.Paced B Q G) :
    ({ p with reg := p.reg.reapDead F } : Process D).Paced B Q G := by
  refine ⟨fun c hc => h.clients c (List.mem_of_mem_filter hc), h.log, ?_, h.queued, h.held, h.fresh⟩
  have hsweep : ∀ (dead : List Client) (b : BandwidthEstimator), b.Entries B →
      (dead.foldl (fun b c => b.reapDead c.id) b).Entries B := by
    intro dead
    induction dead with
    | nil => exact fun _ hb => hb
    | cons c rest ih => exact fun b hb => ih _ (hb.reapDead c.id)
  simp only [Registry.reapDead]
  split_ifs
  · exact hsweep _ _ h.entries
  · exact h.entries

theorem Paced.step (h : p.Paced B Q G) (hr : p.room.WellFormed) {op : Op} (hop : op.Opens K) :
    (p.step F op).Paced B Q G := by
  have hnodup := ids_nodup hr
  have hmodify : ∀ (id : ClientId) (f : PerSubscriber → PerSubscriber), (∀ s, B s → B (f s)) →
      (p.onBandwidth fun b => b.modify id f).Paced B Q G := fun id f hf =>
    h.of_entries rfl rfl (h.entries.modify inv.entry.new id hf) List.suffix_rfl rfl rfl
  have hnotice (hquiet : op.isNotice = true) : (p.step F op).Paced B Q G := by
    obtain ⟨detector, metrics, notices, hnotices, hstep⟩ := p.step_notice F hquiet
    have hnone : modeEvents notices = [] := by
      apply List.filter_eq_nil_iff.mpr
      exact fun e he => by simp [Propagated.isMode_of_isNotice (hnotices e he)]
    rw [hstep]
    refine h.of_eq rfl rfl rfl ?_ rfl rfl
    dsimp only
    rw [modeEvents_append, hnone, List.append_nil]
  cases op with
  | clientNew rtc metrics => exact h.clientNew inv rtc metrics
  | heldPoll id clock result =>
    simp only [Process.step, heldPoll]
    cases hheld : p.heldAt id with
    | none => exact h
    | some x =>
      obtain ⟨j, c⟩ := x
      obtain ⟨hj, rfl⟩ := heldAt_eq_some hheld
      exact (h.held_set inv hj (SamePacing.pollOutput c _ _ _ hop) _).metricsCalls _ _
  | setOrigin id origin => exact h.onClient inv id fun _ => .of_arcs_eq rfl rfl rfl rfl rfl
  | setDesiredLayer id rid => exact h.onClient inv id fun _ => .of_arcs_eq rfl rfl rfl rfl rfl
  | connection id alive writers => exact h.onClient inv id fun _ => .of_arcs_eq rfl rfl rfl rfl rfl
  | dropHeld id =>
    simp only [Process.step, dropHeld]
    split
    · exact h
    · exact h.held_eraseIdx _
  | insert id now =>
    simp only [Process.step, insert]
    cases hheld : p.heldAt id with
    | none => exact h
    | some x =>
      obtain ⟨j, c⟩ := x
      exact h.join inv (heldAt_eq_some hheld).1 (SamePacing.insert F now p.reg c) rfl rfl rfl rfl
  | pollAll now feed =>
    exact h.of_kept hr (inv.kept_pollAll hnodup h.kept hop p.nextAlloc) rfl rfl
  | fanoutPending now => exact h.of_kept hr (inv.kept_fanoutPending hnodup h.kept now) rfl rfl
  | updatePacerLayers origin now =>
    simp only [Process.step]
    split_ifs
    · exact h.of_kept hr (inv.kept_updatePacerLayers hnodup h.kept origin now) rfl rfl
    · exact h
  | reapDead => exact h.reapDead
  | onTwccFeedback id feedback now =>
    simp only [Process.step]
    split_ifs
    · exact hmodify id _ fun s => inv.entry.twcc s feedback now
    · exact h
  | recordSendTime id seq sentAt =>
    simp only [Process.step]
    split_ifs
    · exact hmodify id _ fun s => inv.entry.sendTime s seq sentAt
    · exact h
  | recordNativeEstimate id bps =>
    simp only [Process.step]
    split_ifs
    · exact hmodify id _ fun s => inv.entry.native s _
    · exact h
  | enableGoogcc id =>
    simp only [Process.step]
    split_ifs
    · exact hmodify id _ fun s => inv.entry.enable s
    · exact h
  | googccOnReceive id arrival send loss =>
    simp only [Process.step]
    split_ifs
    · exact h.of_entries rfl rfl (h.entries.receive inv.entry id arrival send loss)
        List.suffix_rfl rfl rfl
    · exact h
  | emitPublisherLayerHints | clientBudgetHint | recordAudioLevel | tickActiveSpeaker
    | tickSpeakerScores => exact hnotice rfl

/-- Every run keeps a pacer invariant. -/
theorem paced_run (now : Instant) (ops : List Op) (hops : ∀ op ∈ ops, op.Opens K) :
    (run F (start now : Process D) ops).Paced B Q G := by
  induction ops using List.reverseRecOn with
  | nil => exact paced_start inv now
  | append_singleton ops op ih =>
    have hprev := ih fun o ho => hops o (List.mem_append_left _ ho)
    have hrun : run F (start now : Process D) (ops ++ [op]) =
        (run F (start now : Process D) ops).step F op := Run.run_concat ..
    rw [hrun]
    exact hprev.step inv (wellFormed_run F now ops) (hops op (by simp))

end Process
end SfuKit
