import SfuKit.Library.Announcement.Room
import SfuKit.Model.DriveFrame

/-! # The registry as an announcement room

Forgetting everything but who owns and who was told about which track turns the
process into a `Room`: clients are members, held clients wait in the lobby, and
the queued `TrackOpen` events are the announcements under way. Every call of the
process is a list of steps of the room.
-/
namespace SfuKit

open Library Library.Announcement

/-- What the room sees of a client. -/
def Client.member (c : Client) : Member :=
  ⟨c.id.raw, c.arcs.map (·.addr), c.tracksOut.map (·.trackIn)⟩

def Propagated.announcement : Propagated → Option (ℕ × ℕ)
  | .trackOpen origin track => some (origin.raw, track)
  | _ => none

def announcements (q : List Propagated) : List (ℕ × ℕ) := q.filterMap Propagated.announcement

@[simp] theorem announcements_append (q q' : List Propagated) :
    announcements (q ++ q') = announcements q ++ announcements q' := List.filterMap_append

theorem announcements_of_isMode {evs : List Propagated} (h : ∀ e ∈ evs, e.isMode = true) :
    announcements evs = [] := by
  rw [announcements, List.filterMap_eq_nil_iff]
  intro e he
  have hmode := h e he
  cases e <;> simp [Propagated.isMode] at hmode <;> rfl

theorem Propagated.announcement_of_isNotice {e : Propagated} (h : e.isNotice = true) :
    e.announcement = none := by
  cases e <;> first | rfl | cases h

namespace Process
variable {D : Type*}

def room (p : Process D) : Room where
  members := p.reg.clients.map Client.member
  lobby := p.held.map Client.member
  pending := announcements p.reg.toPropagate
  nextName := p.idCounter
  nextToken := p.nextAlloc

end Process

section Client
variable (c : Client) (now : Instant)

@[simp] theorem driveReading_member (bps : ℕ) (signals : Option PerSubscriber) :
    (driveReading c now bps signals).client.member = c.member := by
  obtain ⟨_, _, h⟩ := driveReading_client c now bps signals
  rw [h]
  rfl

@[simp] theorem driveSubscriber_member (b : BandwidthEstimator) (origin : ClientId) :
    (driveSubscriber b origin now c).client.member = c.member := by
  rcases driveSubscriber_cases c now b origin with ⟨h, -, -⟩ | ⟨sub, -, -, -, h, -, -⟩
  · rw [h]
  · rw [h, driveReading_member]
    rfl

/-- A polled client keeps its place in the room and may own one more track. -/
theorem pollOutput_member (heap : List ArcTrack) (addr : WeakTrack) (x : PollResult) :
    ((c.pollOutput heap addr now x).1.member = c.member.own addr ∧
      (c.pollOutput heap addr now x).2.1 = .trackOpen c.id addr) ∨
    ((c.pollOutput heap addr now x).1.member = c.member ∧
      (c.pollOutput heap addr now x).2.1.announcement = none) := by
  have hother : (c.pollOutput heap addr now x).1.id = c.id ∧
      (c.pollOutput heap addr now x).1.tracksOut = c.tracksOut := by
    obtain ⟨_, _, _, _, h⟩ := c.pollOutput_eq heap addr now x
    rw [h]
    exact ⟨rfl, rfl⟩
  rcases c.pollOutput_arcs heap addr now x with ⟨mid, kind, -, harcs, hev⟩ | ⟨harcs, hev⟩
  · left
    refine ⟨?_, hev⟩
    simp [Client.member, Member.own, harcs, hother]
  · right
    refine ⟨?_, ?_⟩
    · simp [Client.member, harcs, hother]
    · generalize (c.pollOutput heap addr now x).2.1 = p at hev
      cases p with
      | trackOpen o w => exact absurd rfl (hev o w)
      | _ => rfl

theorem fanoutClient_member (heap : List ArcTrack) (p : Propagated) :
    (fanoutClient heap now p c).1.member =
      match p.announcement with
      | some (owner, t) => c.member.hear owner t
      | none => c.member := by
  cases p with
  | trackOpen origin w =>
    have hname : c.member.name = origin.raw ↔ c.id = origin := by
      simp only [Client.member]
      exact ⟨ClientId.ext, fun h => by rw [h]⟩
    simp only [fanoutClient, Propagated.announcement, Member.hear, hname]
    split_ifs
    · rfl
    · simp [Client.member, Client.handleTrackOpen, Client.arcs, Member.learn]
  | mediaData origin data =>
    obtain ⟨_, _, _, h⟩ := c.handleMediaDataOut_eq heap origin data
    simp only [fanoutClient, Propagated.announcement]
    split_ifs
    · rfl
    · rw [h]; rfl
  | keyframeRequest origin req source mid =>
    simp only [fanoutClient, Client.handleKeyframeRequest, Propagated.announcement]
    repeat' split
    all_goals rfl
  | activeSpeakerChanged peer conf =>
    simp only [fanoutClient, Propagated.announcement]
    split_ifs <;> rfl
  | _ => rfl

end Client

namespace Registry
variable {D : Type*} (F : Features) (now : Instant)

@[simp] theorem announcements_updatePacerLayers (r : Registry D) (origin : ClientId) :
    announcements (r.updatePacerLayers origin now).toPropagate = announcements r.toPropagate := by
  obtain ⟨evs, h, -, hmode⟩ := updatePacerLayers_queue now r origin
  rw [h, announcements_append, announcements_of_isMode hmode, List.append_nil]

@[simp] theorem updatePacerLayers_members (r : Registry D) (origin : ClientId) :
    (r.updatePacerLayers origin now).clients.map Client.member = r.clients.map Client.member := by
  simp [updatePacerLayers]

theorem fanout_members (r : Registry D) (p : Propagated) :
    (r.fanout now p).clients.map Client.member =
      match p.announcement with
      | some (owner, t) => (r.clients.map Client.member).map (Member.hear owner t)
      | none => r.clients.map Client.member := by
  simp only [fanout, List.map_map, Function.comp_def, fanoutClient_member]
  cases p.announcement with
  | none => rfl
  | some e => rfl

/-- Fanning out a popped event delivers its announcement, if it has one. -/
theorem fanoutEvent_members (r : Registry D) (p : Propagated) :
    (r.fanoutEvent F now p).clients.map Client.member =
      match p.announcement with
      | some (owner, t) => (r.clients.map Client.member).map (Member.hear owner t)
      | none => r.clients.map Client.member := by
  cases p with
  | mediaData origin data =>
    simp only [fanoutEvent, fanout_members, Propagated.announcement]
    split_ifs <;> simp
  | clientBudgetHint peer bps =>
    simp only [fanoutEvent, Propagated.announcement]
    split_ifs
    · rfl
    · exact fanout_members now r (.clientBudgetHint peer bps)
  | _ => exact fanout_members now r _

@[simp] theorem announcements_fanoutEvent (r : Registry D) (p : Propagated) :
    announcements (r.fanoutEvent F now p).toPropagate = announcements r.toPropagate := by
  obtain ⟨evs, h, -, hmode⟩ := fanoutEvent_queue F now r p
  rw [h, announcements_append, announcements_of_isMode hmode, List.append_nil]

section Poll
variable [ActiveSpeakerDetector D]

theorem announcements_handlePolled (clock : Instant) (i : ℕ) (c : Client) (st : PollState D)
    (p : Propagated) :
    announcements (handlePolled F now clock i c st p).1.reg.toPropagate =
      announcements st.reg.toPropagate ++ p.announcement.toList := by
  rcases handlePolled_queue F now clock i c st p with ⟨h, hp⟩ | ⟨modes, h, hmode⟩
  · have hnone : p.announcement = none := by rcases hp with rfl | ⟨t, rfl⟩ <;> rfl
    rw [h, hnone, Option.toList_none, List.append_nil]
  · rw [h, ← List.singleton_append, announcements_append, announcements_append,
      announcements_of_isMode hmode, List.append_nil]
    cases hp : p.announcement <;> simp [announcements, hp]

theorem handlePolled_nextAlloc (clock : Instant) (i : ℕ) (c : Client) (st : PollState D)
    (p : Propagated) : (handlePolled F now clock i c st p).1.nextAlloc = st.nextAlloc := by
  cases p <;> rfl

theorem handlePolled_members (clock : Instant) (i : ℕ) (c : Client) (st : PollState D)
    (p : Propagated) (hc : st.reg.clients[i]? = some c) :
    (handlePolled F now clock i c st p).1.reg.clients.map Client.member =
      st.reg.clients.map Client.member := by
  rcases handlePolled_clients F now clock i c st p with h | ⟨-, bps, h⟩
  · rw [h]
  · rw [h]
    exact map_set_eq _ _ hc (driveReading_member ..)

/-- One iteration of the poll loop publishes a track of client `i`, or only passes an
address by. -/
theorem pollStep_room (lobby : List Member) (nextName i : ℕ) (st : PollState D)
    (x : Instant × PollResult) :
    let view (s : PollState D) : Room :=
      ⟨s.reg.clients.map Client.member, lobby, announcements s.reg.toPropagate, nextName,
        s.nextAlloc⟩
    view (pollStep F now i st x).1 = view st ∨
      view (pollStep F now i st x).1 = (view st).step (.publish i) ∨
      view (pollStep F now i st x).1 = (view st).step .allocate := by
  intro view
  unfold pollStep
  cases hc : st.reg.clients[i]? with
  | none => exact .inl rfl
  | some c =>
    dsimp only
    split_ifs with ha
    · right
      have hpoll := pollOutput_member c x.1 st.reg.heap st.nextAlloc x.2
      generalize c.pollOutput st.reg.heap st.nextAlloc x.1 x.2 = q at hpoll
      obtain ⟨c', p, calls⟩ := q
      have hlt : i < st.reg.clients.length := (List.getElem?_eq_some_iff.mp hc).1
      have hget : (st.reg.clients.set i c')[i]? = some c' := by
        rw [List.getElem?_set_self hlt]
      have hmem : (st.reg.clients.map Client.member)[i]? = some c.member := by
        rw [List.getElem?_map, hc]
        rfl
      let st' : PollState D :=
        { st with reg := { st.reg with clients := st.reg.clients.set i c'
                                       metrics := st.reg.metrics.calls calls }
                  nextAlloc := st.nextAlloc + 1 }
      have hview : view (handlePolled F now x.1 i c' st' p).1 =
          ⟨(st.reg.clients.set i c').map Client.member, lobby,
            announcements st.reg.toPropagate ++ p.announcement.toList, nextName,
            st.nextAlloc + 1⟩ := by
        simp only [view, announcements_handlePolled, handlePolled_nextAlloc,
          handlePolled_members F now x.1 i c' st' p hget]
        rfl
      change view (handlePolled F now x.1 i c' st' p).1 = _ ∨
        view (handlePolled F now x.1 i c' st' p).1 = _
      rw [hview]
      rcases hpoll with ⟨hm, hp⟩ | ⟨hm, hp⟩
      · left
        dsimp only at hm hp
        rw [hp, List.map_set, hm]
        simp only [view, Room.step, hmem]
        rfl
      · right
        dsimp only at hm hp
        rw [map_set_eq Client.member _ hc hm, hp]
        simp [view, Room.step]
    · exact .inl rfl

theorem insert_members (r : Registry D) (c : Client) :
    (r.insert F now c).clients.map Client.member = r.clients.map Client.member ++
      [c.member.learn ((r.clients.map Client.member).flatMap (·.owned))] := by
  rw [insert_clients, List.map_append, List.map_singleton]
  simp [Client.member, Client.arcs, Member.learn, heap, List.map_flatMap, List.flatMap_map,
    Function.comp_def]

theorem insert_ids (r : Registry D) (c : Client) : (r.insert F now c).ids = r.ids ++ [c.id] := by
  have h := congrArg (List.map fun m => (⟨m.name⟩ : ClientId)) (insert_members F now r c)
  simpa [ids, Client.member, Member.learn, Function.comp_def] using h

end Poll
end Registry

namespace Process
variable {D : Type*} [ActiveSpeakerDetector D] (F : Features)

omit [ActiveSpeakerDetector D] in
@[simp] theorem metricsCalls_room (p : Process D) (h : MetricsHandle) (calls : List MetricCall) :
    (p.metricsCalls h calls).room = p.room := by
  cases h <;> rfl

omit [ActiveSpeakerDetector D] in
theorem onClient_room (p : Process D) (id : ClientId) {f : Client → Client}
    (hf : ∀ c, (f c).member = c.member) : (p.onClient id f).room = p.room := by
  have hmap : ∀ l, (updateClient id f l).map Client.member = l.map Client.member := by
    intro l
    unfold updateClient
    rw [List.map_map]
    apply List.map_congr_left
    intro c _
    simp only [Function.comp_apply]
    split_ifs
    · exact hf c
    · rfl
  simp only [room, onClient, hmap]

theorem pollAll_room (p : Process D) (now : Instant) (feed : Feed) :
    ∃ acts, (∀ a ∈ acts, Act.Quiet a) ∧
      (p.pollAll F now feed).room = Run.run Room.step p.room acts := by
  let view (s : PollState D) : Room :=
    ⟨s.reg.clients.map Client.member, p.held.map Client.member, announcements s.reg.toPropagate,
      p.idCounter, s.nextAlloc⟩
  have hloop : ∃ acts, (∀ a ∈ acts, Act.Quiet a) ∧
      view (p.reg.pollAll F now feed p.nextAlloc) = Run.run Room.step p.room acts := by
    refine Registry.pollAll_invariant F now feed
      (P := fun st => ∃ acts, (∀ a ∈ acts, Act.Quiet a) ∧
        view st = Run.run Room.step p.room acts) ?_ ?_ ⟨[], by simp, rfl⟩
    · rintro i st c x - - - ⟨acts, hacts, hst⟩
      rcases Registry.pollStep_room F now (p.held.map Client.member) p.idCounter i st x with
        h | h | h
      · exact ⟨acts, hacts, h.trans hst⟩
      · refine ⟨acts ++ [.publish i], ?_, ?_⟩
        · simpa [or_imp, forall_and, Act.Quiet] using hacts
        · rw [Run.run_concat, ← hst]; exact h
      · refine ⟨acts ++ [.allocate], ?_, ?_⟩
        · simpa [or_imp, forall_and, Act.Quiet] using hacts
        · rw [Run.run_concat, ← hst]; exact h
    · exact fun st a s h => h
  exact hloop

theorem fanoutPending_room (p : Process D) (now : Instant) :
    ∃ acts, (∀ a ∈ acts, Act.Quiet a) ∧
      (p.step F (.fanoutPending now)).room = Run.run Room.step p.room acts := by
  refine Registry.fanoutPending_invariant F now
    (P := fun r => ∃ acts, (∀ a ∈ acts, Act.Quiet a) ∧
      ({ p with reg := r } : Process D).room = Run.run Room.step p.room acts) ?_ ⟨[], by simp, rfl⟩
  rintro r ⟨acts, hacts, hr⟩
  unfold Registry.fanoutStep
  cases hq : r.toPropagate with
  | nil => exact ⟨acts, hacts, hr⟩
  | cons e rest =>
    dsimp only
    cases he : e.announcement with
    | none =>
      refine ⟨acts, hacts, ?_⟩
      rw [← hr]
      simp only [room, Registry.fanoutEvent_members, Registry.announcements_fanoutEvent, he, hq]
      simp [announcements, he]
    | some a =>
      obtain ⟨owner, t⟩ := a
      refine ⟨acts ++ [.deliver], ?_, ?_⟩
      · simpa [or_imp, forall_and, Act.Quiet] using hacts
      · rw [Run.run_concat, ← hr]
        have hpend : announcements r.toPropagate = (owner, t) :: announcements rest := by
          rw [hq]
          simp [announcements, he]
        simp only [room, Room.step, hpend, Registry.fanoutEvent_members,
          Registry.announcements_fanoutEvent, he]

theorem reapDead_room (p : Process D) :
    (p.step F .reapDead).room = p.room.step (.leave (p.reg.clients.map Client.isAlive)) := by
  simp only [room, step, Registry.reapDead, Room.step]
  congr 1
  rw [List.zip_map', List.filter_map, List.map_map]
  rfl

theorem insert_room (p : Process D) {id : ClientId} {now : Instant} {j : ℕ} {c : Client}
    (h : p.heldAt id = some (j, c)) :
    (p.step F (.insert id now)).room = p.room.step (.join j) := by
  obtain ⟨hj, -⟩ := heldAt_eq_some h
  have hlobby : (p.held.map Client.member)[j]? = some c.member := by
    rw [List.getElem?_map, hj]
    rfl
  simp only [step, insert, h, room, Room.step, hlobby, Registry.insert_members,
    List.eraseIdx_map]
  rfl

/-- Every call of the process is a list of steps of the room: one peer joins, or dead
members leave, or neither. -/
theorem step_room (p : Process D) (op : Op) :
    (∃ id now j c, op = .insert id now ∧ p.heldAt id = some (j, c) ∧
      (p.step F op).room = p.room.step (.join j)) ∨
    (∃ stay, op = .reapDead ∧ (p.step F op).room = p.room.step (.leave stay)) ∨
    ∃ acts, (∀ a ∈ acts, Act.Quiet a) ∧ (p.step F op).room = Run.run Room.step p.room acts := by
  have hsame : ∀ {q : Process D}, q.room = p.room →
      ∃ acts, (∀ a ∈ acts, Act.Quiet a) ∧ q.room = Run.run Room.step p.room acts :=
    fun h => ⟨[], by simp, h⟩
  have hone : ∀ {q : Process D} (a : Act), a.Quiet → q.room = p.room.step a →
      ∃ acts, (∀ a ∈ acts, Act.Quiet a) ∧ q.room = Run.run Room.step p.room acts :=
    fun a ha h => ⟨[a], by simpa using ha, h⟩
  have hnotice (hquiet : op.isNotice = true) : (p.step F op).room = p.room := by
    obtain ⟨detector, metrics, notices, hnotices, hstep⟩ := p.step_notice F hquiet
    have hnone : announcements notices = [] := by
      apply List.filterMap_eq_nil_iff.mpr
      exact fun e he => Propagated.announcement_of_isNotice (hnotices e he)
    rw [hstep]
    simp only [room, announcements_append, hnone, List.append_nil]
  cases op with
  | insert id now =>
    cases h : p.heldAt id with
    | none => exact .inr (.inr (hsame (by simp [step, insert, h])))
    | some x => exact .inl ⟨id, now, x.1, x.2, rfl, h, insert_room F p h⟩
  | reapDead => exact .inr (.inl ⟨_, rfl, reapDead_room F p⟩)
  | pollAll now feed => exact .inr (.inr (pollAll_room F p now feed))
  | fanoutPending now => exact .inr (.inr (fanoutPending_room F p now))
  | clientNew rtc metrics =>
    refine .inr (.inr (hone .arrive trivial ?_))
    simp only [step, clientNew, metricsCalls_room]
    simp [room, Room.step, Client.new, Client.member, Client.arcs]
  | heldPoll id clock result =>
    right; right
    cases h : p.heldAt id with
    | none => exact hsame (by simp [step, heldPoll, h])
    | some x =>
      obtain ⟨j, c⟩ := x
      obtain ⟨hj, -⟩ := heldAt_eq_some h
      have hlobby : (p.held.map Client.member)[j]? = some c.member := by
        rw [List.getElem?_map, hj]
        rfl
      rcases pollOutput_member c clock p.reg.heap p.nextAlloc result with ⟨hm, -⟩ | ⟨hm, -⟩
      · refine hone (.prepare j) trivial ?_
        simp only [step, heldPoll, h, metricsCalls_room]
        simp only [room, Room.step, hlobby, List.map_set, hm]
      · refine hone .allocate trivial ?_
        simp only [step, heldPoll, h, metricsCalls_room]
        simp only [room, Room.step, map_set_eq Client.member _ hj hm]
  | dropHeld id =>
    right; right
    cases h : p.heldAt id with
    | none => exact hsame (by simp [step, dropHeld, h])
    | some x =>
      refine hone (.depart x.1) trivial ?_
      simp only [step, dropHeld, h, room, Room.step, List.eraseIdx_map]
  | setOrigin id origin => exact .inr (.inr (hsame (onClient_room p id fun _ => rfl)))
  | setDesiredLayer id rid => exact .inr (.inr (hsame (onClient_room p id fun _ => rfl)))
  | connection id alive writers => exact .inr (.inr (hsame (onClient_room p id fun _ => rfl)))
  | updatePacerLayers origin now =>
    right; right
    simp only [step]
    split_ifs
    · exact hsame (by simp [room])
    · exact hsame rfl
  | emitPublisherLayerHints | clientBudgetHint | recordAudioLevel | tickActiveSpeaker
    | tickSpeakerScores => exact .inr (.inr (hsame (hnotice rfl)))
  | onTwccFeedback | recordSendTime | recordNativeEstimate | enableGoogcc | googccOnReceive =>
    right; right
    simp only [step]
    split_ifs <;> exact hsame rfl

end Process
end SfuKit
