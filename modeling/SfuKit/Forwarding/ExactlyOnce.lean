import SfuKit.Library.Interleaving
import SfuKit.Pacer.Advances

/-! # The drain loop delivers every packet exactly once, in order

The loop consumes the queue and appends to it. What it appends are changes of mode, which
cause no appends and no deliveries themselves, so what has been handed out and what the
queue still owes stay the same list.
-/
namespace SfuKit

open Library Interleaving

/-- A call of `handle_media_data_out`: the receiving client, the origin and the packet. -/
abbrev HandOff := ClientId × ClientId × SfuMediaPayload

def Obs.handOff : Obs → Option HandOff
  | .delivery before _ _ origin data => some (before.id, origin, data)
  | .advance .. | .sample .. => none

/-- The packets handed out so far, in order. -/
def handedOut (h : List Obs) : List HandOff := h.filterMap Obs.handOff

/-- What the packets of a queue owe: each goes to every client but its origin. -/
def handOffs (ids : List ClientId) (q : List Propagated) : List HandOff :=
  q.flatMap fun
    | .mediaData origin data => (ids.filter fun id => id ≠ origin).map fun id => (id, origin, data)
    | _ => []

def packets (q : List Propagated) : List (ClientId × SfuMediaPayload) :=
  q.filterMap fun
    | .mediaData origin data => some (origin, data)
    | _ => none

@[simp] theorem handedOut_append (h h' : List Obs) :
    handedOut (h ++ h') = handedOut h ++ handedOut h' := List.filterMap_append

@[simp] theorem handOffs_append (ids : List ClientId) (q q' : List Propagated) :
    handOffs ids (q ++ q') = handOffs ids q ++ handOffs ids q' := List.flatMap_append

@[simp] theorem handOffs_cons (ids : List ClientId) (p : Propagated) (q : List Propagated) :
    handOffs ids (p :: q) = handOffs ids [p] ++ handOffs ids q := by
  rw [← handOffs_append]
  rfl

theorem handOffs_of_isMode (ids : List ClientId) {evs : List Propagated}
    (h : ∀ e ∈ evs, e.isMode = true) : handOffs ids evs = [] := by
  rw [handOffs, List.flatMap_eq_nil_iff]
  intro e he
  have hmode := h e he
  cases e <;> simp [Propagated.isMode] at hmode <;> rfl

def HandOff.sentTo (id : ClientId) (l : List HandOff) : List (ClientId × SfuMediaPayload) :=
  (l.filter fun x => x.1 = id).map Prod.snd

/-- The packets handed to one client so far, in order. -/
def handedTo (id : ClientId) (h : List Obs) : List (ClientId × SfuMediaPayload) :=
  HandOff.sentTo id (handedOut h)

/-- What a queue owes to one client: the packets of the others, in the order of the queue. -/
theorem sentTo_handOffs (id : ClientId) (ids : List ClientId) (q : List Propagated) :
    HandOff.sentTo id (handOffs ids q) =
      (packets q).flatMap fun x => if x.1 = id then [] else List.replicate (ids.count id) x := by
  induction q with
  | nil => rfl
  | cons p q ih =>
    rw [handOffs_cons, HandOff.sentTo, List.filter_append, List.map_append]
    change HandOff.sentTo id (handOffs ids [p]) ++ HandOff.sentTo id (handOffs ids q) = _
    rw [ih]
    cases p with
    | mediaData origin data =>
      have hcons : packets (.mediaData origin data :: q) = (origin, data) :: packets q := rfl
      rw [hcons, List.flatMap_cons]
      congr 1
      simp only [HandOff.sentTo, handOffs, List.flatMap_singleton, List.filter_map, List.map_map,
        List.filter_filter, Function.comp_def]
      by_cases h : origin = id
      · subst h
        simp
      · have hself : ids.filter (fun x => decide (x = id) && decide (x ≠ origin)) =
            List.replicate (ids.count id) id := by
          rw [← List.filter_eq]
          apply List.filter_congr
          intro x _
          by_cases hx : x = id
          · subst hx
            simp [Ne.symm h]
          · simp [hx]
        rw [if_neg h, hself, List.map_replicate]
    | _ => exact List.nil_append _

@[simp] theorem packets_append (q q' : List Propagated) :
    packets (q ++ q') = packets q ++ packets q' := List.filterMap_append

theorem packets_cons (p : Propagated) (q : List Propagated) :
    packets (p :: q) = packets [p] ++ packets q := packets_append [p] q

theorem packets_of_isMode {evs : List Propagated} (h : ∀ e ∈ evs, e.isMode = true) :
    packets evs = [] := by
  rw [packets, List.filterMap_eq_nil_iff]
  intro e he
  have hmode := h e he
  cases e <;> simp [Propagated.isMode] at hmode <;> rfl

/-- What `handle_media_data_out` is called with: the tracks of the room, the publisher and the
packet. -/
abbrev MediaCall := List ArcTrack × ClientId × SfuMediaPayload

/-- The calls that some packets owe to one client: the packets of the others, in their order. -/
def mediaCalls (heap : List ArcTrack) (id : ClientId) (l : List (ClientId × SfuMediaPayload)) :
    List MediaCall :=
  (l.filter fun x => x.1 ≠ id).map fun x => (heap, x)

theorem mediaCalls_append (heap : List ArcTrack) (id : ClientId)
    (l m : List (ClientId × SfuMediaPayload)) :
    mediaCalls heap id (l ++ m) = mediaCalls heap id l ++ mediaCalls heap id m := by
  rw [mediaCalls, List.filter_append, List.map_append]
  rfl

namespace Client

/-- `handle_media_data_out`, with its arguments in one. -/
def take (c : Client) (x : MediaCall) : Client := (c.handleMediaDataOut x.1 x.2.1 x.2.2).1

/-- What the drain loop does to a client at `now` besides handing it packets. -/
inductive Tended (now : Instant) : Client → Client → Prop
  | driven (c : Client) (b : BandwidthEstimator) (origin : ClientId) :
      Tended now c (driveSubscriber b origin now c).client
  | told (c : Client) (w : WeakTrack) : Tended now c (c.handleTrackOpen w)
  | asked (c : Client) (req : SfuKeyframeRequest) (mid : SfuMid) :
      Tended now c (c.handleKeyframeRequest now req mid)
  | elected (c : Client) (peerId : ℕ) : Tended now c (c.handleActiveSpeakerChanged peerId)

/-- The client gets from one state to another by these calls of `handle_media_data_out`, in this
order, and between them by nothing but what `other` allows. -/
def Handles (c : Client) (other : Client → Client → Prop) (calls : List MediaCall)
    (c' : Client) : Prop :=
  Takes take other c calls c'

theorem take_id (c : Client) (x : MediaCall) : (c.take x).id = c.id := by
  obtain ⟨_, _, _, h⟩ := c.handleMediaDataOut_eq x.1 x.2.1 x.2.2
  rw [take, h]

theorem Tended.id_eq {now : Instant} {c d : Client} (h : c.Tended now d) : d.id = c.id := by
  cases h with
  | driven b origin => exact congrArg Prod.fst (driveSubscriber_badge c now b origin)
  | told w => rfl
  | asked req mid =>
    simp only [handleKeyframeRequest]
    repeat' split
    all_goals rfl
  | elected peerId => rfl

end Client

section Client
variable (c : Client) (now : Instant)

theorem handedOut_driveSubscriber (b : BandwidthEstimator) (origin : ClientId) :
    handedOut (driveSubscriber b origin now c).history = [] := by
  rcases driveSubscriber_cases c now b origin with ⟨-, -, h⟩ | ⟨sub, -, -, -, -, -, h⟩
  · rw [h]
    rfl
  · rw [h, driveReading_history]
    rfl

theorem driveSubscriber_tracksIn (b : BandwidthEstimator) (origin : ClientId) :
    (driveSubscriber b origin now c).client.tracksIn = c.tracksIn := by
  rcases driveSubscriber_cases c now b origin with ⟨h, -, -⟩ | ⟨sub, -, -, -, h, -, -⟩
  · rw [h]
  · obtain ⟨_, _, hread⟩ := driveReading_client { c with lastPacerDrive := some now } now
      (asU64 (sub.combinedBps now)) (some sub)
    rw [h, hread]

theorem fanoutClient_tracksIn (heap : List ArcTrack) (p : Propagated) :
    (fanoutClient heap now p c).1.tracksIn = c.tracksIn := by
  cases p with
  | mediaData origin data =>
    obtain ⟨_, _, _, h⟩ := c.handleMediaDataOut_eq heap origin data
    simp only [fanoutClient]
    split_ifs
    · rfl
    · rw [h]
  | keyframeRequest origin req source mid =>
    simp only [fanoutClient, Client.handleKeyframeRequest]
    repeat' split
    all_goals rfl
  | trackOpen origin w => simp only [fanoutClient]; split_ifs <;> rfl
  | activeSpeakerChanged peer conf => simp only [fanoutClient]; split_ifs <;> rfl
  | _ => rfl

/-- The fanout of an event calls a client for the packet of another, and for nothing else. -/
theorem fanoutClient_handles (heap : List ArcTrack) (p : Propagated) :
    c.Handles (Client.Tended now) (mediaCalls heap c.id (packets [p]))
      (fanoutClient heap now p c).1 := by
  cases p with
  | mediaData origin data =>
    by_cases ho : c.id = origin
    · have hnone : mediaCalls heap c.id (packets [.mediaData origin data]) = [] := by
        simp [mediaCalls, packets, ho]
      rw [hnone, fanoutClient, if_pos ho]
      exact .done c
    · have hone : mediaCalls heap c.id (packets [.mediaData origin data]) =
          [(heap, origin, data)] := by
        simp [mediaCalls, packets, Ne.symm ho]
      rw [hone, fanoutClient, if_neg ho]
      exact .of_call c (heap, origin, data)
  | keyframeRequest origin req source mid =>
    simp only [fanoutClient]
    split_ifs
    · exact .of_other (.asked c req mid)
    · exact .done c
  | trackOpen origin w =>
    simp only [fanoutClient]
    split_ifs
    · exact .done c
    · exact .of_other (.told c w)
  | activeSpeakerChanged peerId confidence =>
    simp only [fanoutClient]
    split_ifs
    · exact .done c
    · exact .of_other (.elected c peerId)
  | _ => exact .done c

end Client

namespace Registry
variable {D : Type*} (F : Features) (now : Instant)

/-- What has been handed out, and after it what the queue owes. -/
def account (r : Registry D) : List HandOff := handedOut r.history ++ handOffs r.ids r.toPropagate

theorem handedOut_updatePacerLayers (r : Registry D) (origin : ClientId) :
    handedOut (r.updatePacerLayers origin now).history = handedOut r.history := by
  have hnone : handedOut (r.clients.flatMap fun c =>
      (driveSubscriber r.bandwidth origin now c).history) = [] := by
    induction r.clients with
    | nil => rfl
    | cons c rest ih =>
      rw [List.flatMap_cons, handedOut_append, handedOut_driveSubscriber, ih, List.append_nil]
  rw [updatePacerLayers_history, handedOut_append, hnone, List.append_nil]

theorem handedOut_fanout (r : Registry D) (p : Propagated) :
    handedOut (r.fanout now p).history = handedOut r.history ++ handOffs r.ids [p] := by
  rw [fanout_history, handedOut_append]
  congr 1
  cases p with
  | mediaData origin data =>
    simp [handedOut, deliveries, handOffs, ids, List.filterMap_map, List.filter_map, Obs.handOff,
      Function.comp_def]
  | _ => rfl

theorem handedOut_fanoutEvent (r : Registry D) (p : Propagated) :
    handedOut (r.fanoutEvent F now p).history = handedOut r.history ++ handOffs r.ids [p] := by
  have hids (origin : ClientId) : (r.updatePacerLayers origin now).ids = r.ids :=
    ids_of_badges (updatePacerLayers_badges now r origin)
  cases p with
  | mediaData origin data =>
    simp only [fanoutEvent]
    split_ifs
    · rw [handedOut_fanout, handedOut_updatePacerLayers, hids]
    · exact handedOut_fanout now r _
  | clientBudgetHint peer bps =>
    simp only [fanoutEvent]
    split_ifs
    · exact (List.append_nil _).symm
    · exact handedOut_fanout now r _
  | _ => exact handedOut_fanout now r _

/-- Popping an event pays what it owes, and what is appended owes nothing. -/
theorem fanoutStep_account (r : Registry D) : (r.fanoutStep F now).account = r.account := by
  unfold fanoutStep
  cases hq : r.toPropagate with
  | nil => rfl
  | cons p rest =>
    dsimp only
    obtain ⟨evs, hevs, -, hmode⟩ := fanoutEvent_queue F now { r with toPropagate := rest } p
    have hids := ids_of_badges (fanoutEvent_badges F now { r with toPropagate := rest } p)
    calc (fanoutEvent F now { r with toPropagate := rest } p).account
        = (handedOut r.history ++ handOffs r.ids [p]) ++ handOffs r.ids (rest ++ evs) := by
          rw [account, handedOut_fanoutEvent, hids, hevs]
          rfl
      _ = handedOut r.history ++ handOffs r.ids (p :: rest) := by
          rw [handOffs_append, handOffs_of_isMode _ hmode, List.append_nil, List.append_assoc,
            ← handOffs_cons]
      _ = r.account := by rw [account, hq]

theorem fanout_tracksIn (r : Registry D) (p : Propagated) :
    (r.fanout now p).clients.map (·.tracksIn) = r.clients.map (·.tracksIn) := by
  simp [fanout, fanoutClient_tracksIn]

theorem fanoutStep_tracksIn (r : Registry D) :
    (r.fanoutStep F now).clients.map (·.tracksIn) = r.clients.map (·.tracksIn) := by
  unfold fanoutStep
  split
  · rfl
  · unfold fanoutEvent
    split
    · split_ifs
      · rfl
      · exact fanout_tracksIn now _ _
    · split_ifs
      · rw [fanout_tracksIn]
        simp [updatePacerLayers, driveSubscriber_tracksIn]
      · exact fanout_tracksIn now _ _
    · exact fanout_tracksIn now _ _

theorem heap_eq_of_tracksIn {r r' : Registry D}
    (h : r'.clients.map (·.tracksIn) = r.clients.map (·.tracksIn)) : r'.heap = r.heap := by
  have hheap (s : Registry D) :
      s.heap = (s.clients.map (·.tracksIn)).flatMap fun l => l.map (·.id) := by
    rw [List.flatMap_map]
    rfl
  rw [hheap, hheap, h]

/-- Each client gets from one state of the room to the other by its calls. -/
def Hands (other : Client → Client → Prop) (r r' : Registry D) (calls : ClientId → List MediaCall) :
    Prop :=
  EachTakes Client.take other Client.id r.clients calls r'.clients

variable {other : Client → Client → Prop}

theorem Hands.of_map {r r' : Registry D} {calls : ClientId → List MediaCall}
    {f : Client → Client} (hf : r'.clients = r.clients.map f)
    (h : ∀ c : Client, c.Handles other (calls c.id) (f c)) : r.Hands other r' calls := by
  rw [Hands, hf]
  exact .map h _

theorem Hands.of_clients {r r' : Registry D} (h : r'.clients = r.clients) :
    r.Hands other r' fun _ => [] := by
  rw [Hands, h]
  exact .refl _

theorem Hands.trans {r r' r'' : Registry D} {calls more : ClientId → List MediaCall}
    (hid : ∀ c d : Client, other c d → d.id = c.id) (h : r.Hands other r' calls)
    (h' : r'.Hands other r'' more) : r.Hands other r'' fun id => calls id ++ more id :=
  EachTakes.trans Client.take_id hid h h'

theorem fanout_hands (r : Registry D) (p : Propagated) :
    r.Hands (Client.Tended now) (r.fanout now p) fun id => mediaCalls r.heap id (packets [p]) :=
  .of_map rfl fun c => fanoutClient_handles c now r.heap p

theorem fanoutEvent_hands (r : Registry D) (p : Propagated) :
    r.Hands (Client.Tended now) (r.fanoutEvent F now p)
      fun id => mediaCalls r.heap id (packets [p]) := by
  cases p with
  | mediaData origin data =>
    simp only [fanoutEvent]
    split_ifs
    · have hdriven : r.Hands (Client.Tended now) (r.updatePacerLayers origin now) fun _ => [] :=
        .of_map (updatePacerLayers_clients r origin now) fun c =>
          .of_other (.driven c r.bandwidth origin)
      have hheap : (r.updatePacerLayers origin now).heap = r.heap := by
        apply heap_eq_of_tracksIn
        simp [updatePacerLayers, driveSubscriber_tracksIn]
      rw [← hheap]
      exact hdriven.trans (fun _ _ => Client.Tended.id_eq) (fanout_hands now _ _)
    · exact fanout_hands now r _
  | clientBudgetHint peer bps =>
    simp only [fanoutEvent]
    split_ifs
    · exact .of_clients rfl
    · exact fanout_hands now r _
  | _ => exact fanout_hands now r _

/-- Popping an event makes the calls that it owes, and leaves those that the rest owes. -/
theorem fanoutStep_hands (r : Registry D) : ∃ calls : ClientId → List MediaCall,
    r.Hands (Client.Tended now) (r.fanoutStep F now) calls ∧
      ∀ id, calls id ++ mediaCalls r.heap id (packets (r.fanoutStep F now).toPropagate) =
        mediaCalls r.heap id (packets r.toPropagate) := by
  unfold fanoutStep
  cases hq : r.toPropagate with
  | nil =>
    refine ⟨fun _ => [], .of_clients rfl, fun id => ?_⟩
    rw [hq]
    rfl
  | cons p rest =>
    obtain ⟨evs, hevs, -, hmode⟩ := fanoutEvent_queue F now { r with toPropagate := rest } p
    have hevent : r.Hands (Client.Tended now) (fanoutEvent F now { r with toPropagate := rest } p)
        fun id => mediaCalls r.heap id (packets [p]) :=
      fanoutEvent_hands F now { r with toPropagate := rest } p
    refine ⟨_, hevent, fun id => ?_⟩
    rw [hevs, packets_append, packets_of_isMode hmode, List.append_nil, packets_cons p rest,
      mediaCalls_append]

theorem fanoutPending_hands (r : Registry D) :
    r.Hands (Client.Tended now) (r.fanoutPending F now)
      fun id => mediaCalls r.heap id (packets r.toPropagate) := by
  let P (s : Registry D) : Prop :=
    s.clients.map (·.tracksIn) = r.clients.map (·.tracksIn) ∧
      ∃ calls : ClientId → List MediaCall, r.Hands (Client.Tended now) s calls ∧
        ∀ id, calls id ++ mediaCalls r.heap id (packets s.toPropagate) =
          mediaCalls r.heap id (packets r.toPropagate)
  have hstep : ∀ s, P s → P (s.fanoutStep F now) := by
    rintro s ⟨htracks, calls, hcalls, howed⟩
    obtain ⟨more, hmore, hrest⟩ := fanoutStep_hands F now s
    rw [heap_eq_of_tracksIn htracks] at hrest
    refine ⟨(fanoutStep_tracksIn F now s).trans htracks, _,
      hcalls.trans (fun _ _ => Client.Tended.id_eq) hmore, fun id => ?_⟩
    rw [List.append_assoc, hrest, howed]
  have hstart : P r := ⟨rfl, fun _ => [], .of_clients rfl, fun _ => rfl⟩
  obtain ⟨-, calls, hcalls, howed⟩ := fanoutPending_invariant F now hstep hstart
  have hall : calls = fun id => mediaCalls r.heap id (packets r.toPropagate) := by
    funext id
    have h := howed id
    rw [fanoutPending_toPropagate] at h
    exact (List.append_nil _).symm.trans h
  rwa [hall] at hcalls

/-- Packet by packet the drain loop calls every client but the origin. -/
theorem handedOut_fanoutPending (r : Registry D) :
    handedOut (r.fanoutPending F now).history =
      handedOut r.history ++ handOffs r.ids r.toPropagate := by
  have haccount : (r.fanoutPending F now).account = r.account :=
    fanoutPending_invariant F now (P := fun s => s.account = r.account)
      (fun s hs => (fanoutStep_account F now s).trans hs) rfl
  rw [account, fanoutPending_toPropagate] at haccount
  simpa [handOffs, account] using haccount

/-- In every state the drain loop ends with an empty queue. What it does to a client are the calls
of `handle_media_data_out` for the queued packets of the others, each once and in the order of the
queue, and the history records these calls (ids are unique, so that a client counts once). Nobody's
tracks change. -/
theorem fanoutPending_exactly_once (r : Registry D) :
    (r.fanoutPending F now).toPropagate = [] ∧
      List.Forall₂ (fun c c' =>
          c.Handles (Client.Tended now) (mediaCalls r.heap c.id (packets r.toPropagate)) c')
        r.clients (r.fanoutPending F now).clients ∧
      (∀ id, handedTo id (r.fanoutPending F now).history = handedTo id r.history ++
        (packets r.toPropagate).flatMap fun x =>
          if x.1 = id then [] else List.replicate (r.ids.count id) x) ∧
      (r.fanoutPending F now).ids = r.ids ∧
      (r.fanoutPending F now).clients.map (·.tracksIn) = r.clients.map (·.tracksIn) := by
  refine ⟨fanoutPending_toPropagate F now r, fanoutPending_hands F now r, fun id => ?_,
    ids_of_badges (fanoutPending_badges F now r), ?_⟩
  · rw [handedTo, handedOut_fanoutPending, HandOff.sentTo, List.filter_append, List.map_append,
      ← sentTo_handOffs]
    rfl
  · exact fanoutPending_invariant F now
      (P := fun s => s.clients.map (·.tracksIn) = r.clients.map (·.tracksIn))
      (fun s hs => (fanoutStep_tracksIn F now s).trans hs) rfl

end Registry
end SfuKit
