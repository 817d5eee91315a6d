import SfuKit.Forwarding.Provenance
import SfuKit.Forwarding.RelayRouting

/-! # Who has left

What the room does concerns those who are in it. A client that has left does not come back, and
the packets of it that still wait in the queue are written for nobody, because its tracks are
gone with it.
-/
namespace SfuKit

open Library

/-- An entry of the history concerns a client if it is about the client, or a packet of the client
is written. -/
def Obs.Concerns (id : ClientId) : Obs → Prop
  | .advance peer .. | .sample peer .. => peer = id
  | .delivery before _ heap origin data =>
    before.id = id ∨ origin = id ∧ (before.writeCall heap origin data).isSome

theorem Client.exists_track_of_writeCall {c : Client} {heap : List ArcTrack} {origin : ClientId}
    {data : SfuMediaPayload} (h : (c.writeCall heap origin data).isSome) :
    ∃ a ∈ heap, a.track.origin = origin := by
  unfold writeCall at h
  split_ifs at h
  · cases hfind : c.tracksOut.find? (matchesTrack heap origin data.mid) with
    | none => simp [outbound, hfind] at h
    | some o =>
      have hmatch : matchesTrack heap origin data.mid o = true := List.find?_some hfind
      obtain ⟨t, ht, htrack⟩ := (Option.any_eq_true _ _).mp hmatch
      exact ⟨_, mem_of_upgrade ht, (of_decide_eq_true htrack).1⟩
  · cases h

namespace Registry
variable {D : Type*}

/-- From the one room to the other the members are the same, and what the history records in
between concerns them alone. -/
structure Attended (r r' : Registry D) : Prop where
  ids : r'.ids = r.ids
  descends : Descends r.clients r'.clients
  history : ∃ obs, r'.history = r.history ++ obs ∧ ∀ o ∈ obs, ∀ id, o.Concerns id → id ∈ r.ids

namespace Attended
variable {r r' r'' : Registry D}

theorem refl (r : Registry D) : r.Attended r := ⟨rfl, .refl _, [], by simp, by simp⟩

theorem trans (h : r.Attended r') (h' : r'.Attended r'') : r.Attended r'' := by
  obtain ⟨obs, hhistory, hobs⟩ := h.history
  obtain ⟨obs', hhistory', hobs'⟩ := h'.history
  rw [h.ids] at hobs'
  refine ⟨h'.ids.trans h.ids, h.descends.trans h'.descends, obs ++ obs', ?_, ?_⟩
  · rw [hhistory', hhistory, List.append_assoc]
  · exact List.forall_mem_append.mpr ⟨hobs, hobs'⟩

theorem quiet (hids : r'.ids = r.ids) (hd : Descends r.clients r'.clients)
    (hh : r'.history = r.history) : r.Attended r' :=
  ⟨hids, hd, [], by rw [hh, List.append_nil], by simp⟩

theorem signed (h : r.Attended r') (hr : ∀ c ∈ r.clients, c.Signed) : ∀ c ∈ r'.clients, c.Signed := by
  intro c' hc'
  obtain ⟨c, hc, he⟩ := h.descends c' hc'
  exact he.signed (hr c hc)

end Attended

variable (F : Features) (now : Instant) {r : Registry D}

theorem updatePacerLayers_attended (origin : ClientId) :
    r.Attended (r.updatePacerLayers origin now) := by
  refine ⟨ids_of_badges (updatePacerLayers_badges now r origin), updatePacerLayers_descends now r origin,
    _, updatePacerLayers_history r origin now, ?_⟩
  intro o ho id hid
  obtain ⟨c, hc, hoc⟩ := List.mem_flatMap.mp ho
  rcases driveSubscriber_cases c now r.bandwidth origin with ⟨-, -, h⟩ | ⟨s, -, -, -, -, -, h⟩
  · rw [h] at hoc
    cases hoc
  · rw [h, driveReading_history, List.mem_singleton] at hoc
    subst hoc
    rw [← show c.id = id from hid]
    exact List.mem_map_of_mem hc

theorem fanout_attended (hr : ∀ c ∈ r.clients, c.Signed) (p : Propagated) :
    r.Attended (r.fanout now p) := by
  refine ⟨ids_of_badges (fanout_badges now r p), fanout_descends now r p, _,
    fanout_history now r p, ?_⟩
  intro o ho id hid
  cases p with
  | mediaData origin data =>
    obtain ⟨c, hc, rfl⟩ := List.mem_map.mp ho
    rcases hid with rfl | ⟨rfl, hwrite⟩
    · exact List.mem_map_of_mem (List.mem_of_mem_filter hc)
    · obtain ⟨a, ha, rfl⟩ := Client.exists_track_of_writeCall hwrite
      obtain ⟨d, hd, had⟩ := List.mem_flatMap.mp ha
      rw [hr d hd a had]
      exact List.mem_map_of_mem hd
  | _ => cases ho

theorem fanoutEvent_attended (hr : ∀ c ∈ r.clients, c.Signed) (p : Propagated) :
    r.Attended (r.fanoutEvent F now p) := by
  cases p with
  | mediaData origin data =>
    simp only [fanoutEvent]
    split_ifs
    · have hpacer : r.Attended (r.updatePacerLayers origin now) :=
        updatePacerLayers_attended now origin
      exact hpacer.trans (fanout_attended now (hpacer.signed hr) _)
    · exact fanout_attended now hr _
  | clientBudgetHint peer bps =>
    simp only [fanoutEvent]
    split_ifs
    · exact .quiet rfl (.refl _) rfl
    · exact fanout_attended now hr _
  | _ => exact fanout_attended now hr _

theorem fanoutPending_attended (hr : ∀ c ∈ r.clients, c.Signed) :
    r.Attended (r.fanoutPending F now) := by
  apply fanoutPending_invariant F now (P := fun s => r.Attended s) _ (.refl r)
  intro s hs
  unfold fanoutStep
  split
  · exact hs
  · next p rest hq =>
    have hpop : s.Attended { s with toPropagate := rest } := .quiet rfl (.refl _) rfl
    exact hs.trans (hpop.trans (fanoutEvent_attended F now (hpop.signed (hs.signed hr)) p))

theorem feedGoogcc_attended (r : Registry D) (arrivalMs sendMs : ℚ) :
    r.Attended (r.feedGoogcc arrivalMs sendMs) := by
  refine ⟨rfl, .refl _, _, rfl, ?_⟩
  intro o ho id hid
  obtain ⟨c, hc, rfl⟩ := List.mem_map.mp ho
  rw [← show c.id = id from hid]
  exact List.mem_map_of_mem (List.mem_of_mem_filter hc)

section Poll
variable [ActiveSpeakerDetector D]

theorem handlePolled_history (clock : Instant) (i : ℕ) (c : Client) (st : PollState D)
    (p : Propagated) : ∃ obs, (handlePolled F now clock i c st p).1.reg.history =
      st.reg.history ++ obs ∧ ∀ o ∈ obs, ∀ id, o.Concerns id → c.id = id := by
  obtain ⟨_, hlevel⟩ := recordPolledLevel_eq F clock c st.reg p
  have hnone : ∀ r : Registry D, r.history = st.reg.history → ∃ obs, r.history =
      st.reg.history ++ obs ∧ ∀ o ∈ obs, ∀ id, o.Concerns id → c.id = id := fun r h =>
    ⟨[], by rw [h, List.append_nil], by simp⟩
  cases p with
  | bandwidthEstimate peer bps =>
    simp only [handlePolled]
    split_ifs
    · exact hnone _ rfl
    · refine ⟨_, rfl, ?_⟩
      rw [driveReading_history, List.forall_mem_singleton]
      exact fun id hid => hid
    · exact hnone _ rfl
  | rtcpStats | timeout | noop => exact hnone _ rfl
  | _ =>
    simp only [handlePolled, hlevel]
    exact hnone _ rfl

theorem pollStep_attended (i : ℕ) (st : PollState D) (x : Instant × PollResult) :
    st.reg.Attended (pollStep F now i st x).1.reg := by
  refine ⟨ids_of_badges (pollStep_badges F now i st x), pollStep_descends F now i st x, ?_⟩
  unfold pollStep
  cases hc : st.reg.clients[i]? with
  | none => exact ⟨[], by simp, by simp⟩
  | some c =>
    dsimp only
    split_ifs
    · have hid : (c.pollOutput st.reg.heap st.nextAlloc x.1 x.2).1.id = c.id :=
        congrArg Prod.fst (pollOutput_badge c x.1 st.reg.heap st.nextAlloc x.2)
      generalize c.pollOutput st.reg.heap st.nextAlloc x.1 x.2 = q at hid
      obtain ⟨obs, hhistory, hobs⟩ := handlePolled_history F now x.1 i q.1
        { st with reg := { st.reg with clients := st.reg.clients.set i q.1
                                       metrics := st.reg.metrics.calls q.2.2 }
                  nextAlloc := st.nextAlloc + 1 } q.2.1
      refine ⟨obs, hhistory, fun o ho id hconcerns => ?_⟩
      rw [← hobs o ho id hconcerns, hid]
      exact List.mem_map_of_mem (List.mem_of_getElem? hc)
    · exact ⟨[], by simp, by simp⟩

theorem pollAll_attended (feed : Feed) (nextAlloc : WeakTrack) (r : Registry D) :
    r.Attended (r.pollAll F now feed nextAlloc).reg := by
  apply pollAll_invariant F now feed (P := fun st => r.Attended st.reg)
  · intro i st c x _ _ _ hst
    exact hst.trans (pollStep_attended F now i st x)
  · intro st a s hst
    exact hst.trans (feedGoogcc_attended st.reg a s)
  · exact .refl r

end Poll
end Registry

namespace Process
variable {D : Type*} [ActiveSpeakerDetector D] (F : Features)

/-- What a move records concerns the members of the room. -/
theorem move_history {p : Process D} (hp : ∀ c ∈ p.reg.clients, c.Signed) (x : Move) :
    ∃ obs, (p.move F x).reg.history = p.reg.history ++ obs ∧
      ∀ o ∈ obs, ∀ id, o.Concerns id → id ∈ p.reg.ids := by
  have hsame : ∀ q : Process D, q.reg.history = p.reg.history → ∃ obs, q.reg.history =
      p.reg.history ++ obs ∧ ∀ o ∈ obs, ∀ id, o.Concerns id → id ∈ p.reg.ids := fun q h =>
    ⟨[], by rw [h, List.append_nil], by simp⟩
  have hidle (hx : x.isRouting = false) := hsame _ (move_idle F p hx).1
  cases x with
  | setMaxTemporalLayer | setMaxVfmTemporalLayer | negotiated => exact hidle rfl
  | call op =>
    cases op with
    | pollAll now feed => exact (Registry.pollAll_attended F now feed p.nextAlloc p.reg).history
    | fanoutPending now => exact (Registry.fanoutPending_attended F now hp).history
    | updatePacerLayers origin now =>
      simp only [move, step]
      split_ifs
      · exact (Registry.updatePacerLayers_attended now origin).history
      · exact hsame _ rfl
    | _ => exact hidle rfl

theorem mem_clients_move {p : Process D} {x : Move} {c' : Client}
    (hc' : c' ∈ (p.move F x).clients) :
    (∃ c ∈ p.clients, c'.id = c.id ∧ (c.Signed → c'.Signed)) ∨
      c'.id = ⟨p.idCounter⟩ ∧ c'.Signed := by
  have hclient : ∀ (id : ClientId) (f : Client → Client), (∀ c, (f c).id = c.id) →
      (∀ c, (f c).arcs = c.arcs) → p.move F x = p.onClient id f →
      ∃ c ∈ p.clients, c'.id = c.id ∧ (c.Signed → c'.Signed) := by
    intro id f hid harcs hmove
    have hmap : (p.onClient id f).clients = updateClient id f p.clients := List.map_append.symm
    rw [hmove, hmap] at hc'
    obtain ⟨c, hc, rfl⟩ := List.mem_map.mp hc'
    refine ⟨c, hc, ?_⟩
    split_ifs
    · simp only [Client.Signed, harcs, hid, true_and, imp_self]
    · exact ⟨rfl, fun h => h⟩
  cases x with
  | setMaxTemporalLayer id max =>
    exact .inl (hclient id (·.setMaxTemporalLayer max) (fun _ => rfl) (fun _ => rfl) rfl)
  | setMaxVfmTemporalLayer id max =>
    exact .inl (hclient id (·.setMaxVfmTemporalLayer max) (fun _ => rfl) (fun _ => rfl) rfl)
  | negotiated id trackIn mid =>
    exact .inl (hclient id (·.negotiated trackIn mid) (fun _ => rfl) (fun _ => rfl) rfl)
  | call op =>
    rcases p.mem_clients_step F hc' with
      ⟨c, hc, he, -⟩ | ⟨c, hc, origin, -, rfl⟩ | ⟨rtc, metrics, -, rfl⟩
    · exact .inl ⟨c, hc, he.id, he.signed⟩
    · exact .inl ⟨c, hc, rfl, fun h => h⟩
    · refine .inr ⟨rfl, fun a ha => ?_⟩
      cases ha

theorem signed_move {p : Process D} (hp : ∀ c ∈ p.clients, c.Signed) (x : Move) :
    ∀ c ∈ (p.move F x).clients, c.Signed := by
  intro c' hc'
  rcases mem_clients_move F hc' with ⟨c, hc, -, hsigned⟩ | ⟨-, hsigned⟩
  · exact hsigned (hp c hc)
  · exact hsigned

/-- A client with this id has been there, and has left. -/
structure Departed (p : Process D) (id : ClientId) : Prop where
  born : id.raw < p.idCounter
  left : ∀ c ∈ p.clients, c.id ≠ id

theorem Departed.move {p : Process D} {id : ClientId} (h : p.Departed id) (x : Move) :
    (p.move F x).Departed id := by
  have hcounter : p.idCounter ≤ (p.move F x).idCounter := by
    cases x with
    | call op => exact p.idCounter_le_step F op
    | _ => exact le_rfl
  refine ⟨h.born.trans_le hcounter, ?_⟩
  intro c' hc'
  rcases mem_clients_move F hc' with ⟨c, hc, hid, -⟩ | ⟨hid, -⟩
  · rw [hid]
    exact h.left c hc
  · rw [hid]
    rintro rfl
    exact h.born.ne rfl

/-- Client 0 leaves with a second packet of it in the queue. -/
def leavesEarly : List Move := forwardedOnce ++
  [.call (.pollAll 2 fun id =>
      if id = ⟨0⟩ then
        [(2, some (.event (.mediaData
          ⟨⟨5⟩, ⟨111⟩, none, [4, 5], 8, true, ⟨1920, 48000⟩, ⟨0, false⟩, none, some 9⟩)))]
      else []),
    .call (.connection ⟨0⟩ false []), .call .reapDead]

/-- The second packet is still counted, but not written. -/
example : (Run.run (move .full) (start 0 : Process PeerDetector)
    (leavesEarly ++ [.call (.fanoutPending 3)])).clients.map
      (fun c => (c.deliveredMedia, c.rtc.written.length)) = [(2, 1)] := by
  decide

end Process
end SfuKit
