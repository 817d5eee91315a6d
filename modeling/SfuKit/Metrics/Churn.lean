import SfuKit.Metrics.Series

/-! # Series over connection churn

`Client::new` creates the drop counter of a client before the client is admitted, and the
sweep deletes the series of admitted clients only. A client that is dropped in between
leaves its series behind for good.
-/
namespace SfuKit

open Library Library.Announcement

/-- Calls that change no client's origin. -/
def Op.KeepsOrigins : Op → Prop
  | .setOrigin _ _ => False
  | _ => True

instance : DecidablePred Op.KeepsOrigins
  | .setOrigin .. => .isFalse id
  | .clientNew .. | .heldPoll .. | .setDesiredLayer .. | .connection .. | .dropHeld ..
  | .insert .. | .pollAll .. | .fanoutPending .. | .updatePacerLayers ..
  | .emitPublisherLayerHints | .reapDead | .onTwccFeedback .. | .recordSendTime ..
  | .recordNativeEstimate .. | .clientBudgetHint .. | .enableGoogcc .. | .googccOnReceive ..
  | .recordAudioLevel .. | .tickActiveSpeaker .. | .tickSpeakerScores => .isTrue trivial

namespace Process
variable {D : Type*}

/-- Every per-peer series is of a client that is connected or held. -/
def SeriesBounded (p : Process D) : Prop :=
  ∀ s ∈ p.reg.metrics.series, ∃ c ∈ p.clients, c.id.raw = s.2

instance (p : Process D) : Decidable p.SeriesBounded :=
  inferInstanceAs (Decidable (∀ s ∈ p.reg.metrics.series, ∃ c ∈ p.clients, c.id.raw = s.2))

/-- No held client with the registry's metrics handle is dropped. -/
def KeepsHandles (p : Process D) : Op → Prop
  | .dropHeld id => ∀ x ∈ p.heldAt id, x.2.metrics = .throwaway
  | _ => True

instance (p : Process D) : DecidablePred p.KeepsHandles
  | .dropHeld id => inferInstanceAs (Decidable (∀ x ∈ p.heldAt id, x.2.metrics = .throwaway))
  | .clientNew .. | .heldPoll .. | .setOrigin .. | .setDesiredLayer .. | .connection ..
  | .insert .. | .pollAll .. | .fanoutPending .. | .updatePacerLayers ..
  | .emitPublisherLayerHints | .reapDead | .onTwccFeedback .. | .recordSendTime ..
  | .recordNativeEstimate .. | .clientBudgetHint .. | .enableGoogcc .. | .googccOnReceive ..
  | .recordAudioLevel .. | .tickActiveSpeaker .. | .tickSpeakerScores => .isTrue trivial

def ticket (c : Client) : ClientId × ClientOrigin × MetricsHandle := (c.id, c.origin, c.metrics)

theorem exists_of_tickets {l l' : List Client} (h : l'.map ticket = l.map ticket) {d : Client}
    (hd : d ∈ l') : ∃ c ∈ l, c.id = d.id ∧ c.origin = d.origin ∧ c.metrics = d.metrics := by
  have hmem : ticket d ∈ l.map ticket := by
    rw [← h]
    exact List.mem_map_of_mem hd
  obtain ⟨c, hc, ht⟩ := List.mem_map.mp hmem
  simp only [ticket, Prod.mk.injEq] at ht
  exact ⟨c, hc, ht⟩

/-- The same clients, and more series of the connected ones. -/
structure Rolled (p q : Process D) : Prop where
  badges : q.reg.badges = p.reg.badges
  tickets : q.held.map ticket = p.held.map ticket
  counter : q.idCounter = p.idCounter
  grows : p.reg.metrics.Grows (fun n => ∃ id ∈ p.reg.ids, id.raw = n) q.reg.metrics

theorem Rolled.of_eq {p q : Process D} (hb : q.reg.badges = p.reg.badges) (hh : q.held = p.held)
    (hc : q.idCounter = p.idCounter) (hm : q.reg.metrics.series = p.reg.metrics.series) :
    Rolled p q := by
  refine ⟨hb, by rw [hh], hc, ?_, fun s hs => .inl ?_⟩
  · rw [hm]
    exact List.Subset.refl _
  · rwa [← hm]

theorem Rolled.metricsCalls {p q : Process D} (h : Rolled p q) (handle : MetricsHandle)
    {calls : List MetricCall}
    (hcalls : ∀ c ∈ calls, c.Labels fun n => ∃ id ∈ p.reg.ids, id.raw = n) :
    Rolled p (q.metricsCalls handle calls) := by
  cases handle with
  | throwaway => exact h
  | registry => exact ⟨h.badges, h.tickets, h.counter, h.grows.trans (SfuMetrics.grows_calls hcalls _)⟩

theorem rolled_onClient (p : Process D) (id : ClientId) {f : Client → Client}
    (hf : ∀ c, (f c).badge = c.badge ∧ ticket (f c) = ticket c) : Rolled p (p.onClient id f) := by
  refine ⟨onClient_map p id fun c => (hf c).1, ?_, rfl, .refl _⟩
  simp only [onClient, updateClient, List.map_map]
  apply List.map_congr_left
  intro c _
  simp only [Function.comp_apply]
  split_ifs
  · exact (hf c).2
  · rfl

variable [ActiveSpeakerDetector D] (F : Features)

/-- A call admits or releases clients, or leaves the roll alone. -/
theorem step_rolled {p : Process D} {op : Op} (hop : op.KeepsOrigins)
    (hscores : F.activeSpeaker = true →
      ∀ s ∈ ActiveSpeakerDetector.peerScores p.reg.detector, ∃ id ∈ p.reg.ids, id.raw = s.1) :
    (∃ rtc handle, op = .clientNew rtc handle) ∨
    (∃ id j c, op = .dropHeld id ∧ p.heldAt id = some (j, c) ∧
      p.step F op = { p with held := p.held.eraseIdx j }) ∨
    (∃ id now j c, op = .insert id now ∧ p.heldAt id = some (j, c) ∧
      p.step F op = { p with reg := p.reg.insert F now c, held := p.held.eraseIdx j }) ∨
    op = .reapDead ∨ Rolled p (p.step F op) := by
  have hsame : Rolled p p := .of_eq rfl rfl rfl rfl
  have hids : ∀ id ∈ p.reg.ids, ∃ id' ∈ p.reg.ids, id'.raw = id.raw := fun id hid => ⟨id, hid, rfl⟩
  cases op with
  | clientNew rtc handle => exact .inl ⟨rtc, handle, rfl⟩
  | dropHeld id =>
    cases hx : p.heldAt id with
    | none =>
      iterate 4 right
      simp only [step, dropHeld, hx]
      exact hsame
    | some x => exact .inr (.inl ⟨id, x.1, x.2, rfl, hx, by simp only [step, dropHeld, hx]⟩)
  | insert id now =>
    cases hx : p.heldAt id with
    | none =>
      iterate 4 right
      simp only [step, insert, hx]
      exact hsame
    | some x =>
      exact .inr (.inr (.inl ⟨id, now, x.1, x.2, rfl, hx, by simp only [step, insert, hx]⟩))
  | reapDead => exact .inr (.inr (.inr (.inl rfl)))
  | setOrigin => exact hop.elim
  | heldPoll id clock result =>
    iterate 4 right
    simp only [step, heldPoll]
    cases hx : p.heldAt id with
    | none => exact hsame
    | some x =>
      obtain ⟨j, c⟩ := x
      obtain ⟨hj, -⟩ := heldAt_eq_some hx
      apply Rolled.metricsCalls
      · refine ⟨rfl, map_set_eq _ _ hj ?_, rfl, .refl _⟩
        obtain ⟨_, _, _, _, hc⟩ := c.pollOutput_eq p.reg.heap p.nextAlloc clock result
        rw [hc]
        rfl
      · exact pollOutput_labels c clock p.reg.heap p.nextAlloc result
  | setDesiredLayer id rid =>
    iterate 4 right
    exact rolled_onClient p id fun _ => ⟨rfl, rfl⟩
  | connection id alive writers =>
    iterate 4 right
    exact rolled_onClient p id fun _ => ⟨rfl, rfl⟩
  | pollAll now feed =>
    iterate 4 right
    exact ⟨Registry.pollAll_badges F now feed p.nextAlloc p.reg, rfl, rfl,
      p.reg.pollAll_grows F now hids feed p.nextAlloc⟩
  | fanoutPending now =>
    iterate 4 right
    exact ⟨Registry.fanoutPending_badges F now p.reg, rfl, rfl,
      p.reg.fanoutPending_grows F now hids⟩
  | updatePacerLayers origin now =>
    iterate 4 right
    simp only [step]
    split_ifs
    · exact ⟨Registry.updatePacerLayers_badges now p.reg origin, rfl, rfl,
        p.reg.updatePacerLayers_grows now hids origin⟩
    · exact hsame
  | tickSpeakerScores =>
    iterate 4 right
    simp only [step]
    split_ifs with hF
    · exact ⟨rfl, rfl, rfl, p.reg.tickSpeakerScores_grows (hscores hF)⟩
    · exact hsame
  | recordAudioLevel peerId levelRaw now =>
    iterate 4 right
    simp only [step, Registry.recordAudioLevel]
    split_ifs <;> exact .of_eq rfl rfl rfl rfl
  | tickActiveSpeaker now =>
    iterate 4 right
    simp only [step, Registry.tickActiveSpeaker]
    split_ifs
    · split <;> exact .of_eq rfl rfl rfl rfl
    · exact hsame
  | emitPublisherLayerHints | clientBudgetHint =>
    iterate 4 right
    exact .of_eq rfl rfl rfl rfl
  | onTwccFeedback | recordSendTime | recordNativeEstimate | enableGoogcc | googccOnReceive =>
    iterate 4 right
    simp only [step]
    split_ifs <;> exact .of_eq rfl rfl rfl rfl

omit [ActiveSpeakerDetector D] in
/-- A new client is held, and has a drop counter if it gets the registry's handle. -/
theorem clientNew_spec (p : Process D) (rtc : Rtc) (handle : MetricsHandle) :
    let q := p.clientNew rtc handle
    q.held = p.held ++ [(Client.new ⟨p.idCounter⟩ rtc handle).1] ∧
      q.reg.clients = p.reg.clients ∧ q.idCounter = p.idCounter + 1 ∧
      p.reg.metrics.Grows (fun n => handle = .registry ∧ n = p.idCounter) q.reg.metrics ∧
      (handle = .registry → (.videoFramesDropped, p.idCounter) ∈ q.reg.metrics.series) := by
  cases handle with
  | throwaway => exact ⟨rfl, rfl, rfl, .refl _, fun h => by cases h⟩
  | registry =>
    refine ⟨rfl, rfl, rfl, ?_, fun _ => SfuMetrics.mem_call_withLabelValues ..⟩
    have hlabels : MetricCall.Labels (fun n => MetricsHandle.registry = .registry ∧ n = p.idCounter)
        (.withLabelValues .videoFramesDropped p.idCounter) := ⟨rfl, rfl⟩
    exact SfuMetrics.grows_call hlabels _

omit [ActiveSpeakerDetector D] in
theorem heldAt_perm {p : Process D} {id : ClientId} {j : ℕ} {c : Client}
    (h : p.heldAt id = some (j, c)) : p.held.Perm (c :: p.held.eraseIdx j) := by
  obtain ⟨hlt, rfl⟩ := List.getElem?_eq_some_iff.mp (heldAt_eq_some h).1
  exact (List.getElem_cons_eraseIdx_perm hlt).symm

/-- Without relays: all clients are local, and the connected ones are registered with the
detector. Held clients with the registry's handle have a drop counter. -/
structure Ledger (peers : D → Finset ℕ) (p : Process D) : Prop where
  counters : ∀ c ∈ p.held, c.metrics = .registry →
    (.videoFramesDropped, c.id.raw) ∈ p.reg.metrics.series
  held_local : ∀ c ∈ p.held, c.origin = .locally
  registered : F.activeSpeaker = true → ∀ c ∈ p.reg.clients, c.inSpeakerDetector = true
  exact : F.activeSpeaker = true → p.DetectorExact peers

namespace Ledger
variable {F} {peers : D → Finset ℕ} {p q : Process D}

theorem scores (h : p.Ledger F peers)
    (hscores : ∀ d, ∀ s ∈ ActiveSpeakerDetector.peerScores d, s.1 ∈ peers d)
    (hF : F.activeSpeaker = true) :
    ∀ s ∈ ActiveSpeakerDetector.peerScores p.reg.detector, ∃ id ∈ p.reg.ids, id.raw = s.1 := by
  intro s hs
  have hmem := hscores _ s hs
  rw [h.exact hF, mem_registered] at hmem
  obtain ⟨c, hc, -, hid⟩ := hmem
  exact ⟨c.id, List.mem_map_of_mem hc, hid⟩

theorem step (laws : MembershipLaws peers)
    (hscores : ∀ d, ∀ s ∈ ActiveSpeakerDetector.peerScores d, s.1 ∈ peers d)
    (h : p.Ledger F peers) (hr : p.room.WellFormed) {op : Op} (hop : op.KeepsOrigins) :
    (p.step F op).Ledger F peers := by
  have hexact : F.activeSpeaker = true → (p.step F op).DetectorExact peers := by
    intro hF
    refine (detectorExact_step_iff F laws hF p op hr (h.exact hF)).mpr ?_
    cases op with
    | pollAll now feed => exact fun c hc _ _ _ => h.registered hF c hc
    | _ => trivial
  rcases step_rolled F hop (h.scores hscores) with ⟨rtc, handle, rfl⟩ | ⟨id, j, c, rfl, hx, hs⟩ |
    ⟨id, now, j, c, rfl, hx, hs⟩ | rfl | hroll
  · obtain ⟨hheld, hclients, -, hgrows, hnew⟩ := p.clientNew_spec rtc handle
    refine ⟨fun d hd hreg => ?_, fun d hd => ?_, ?_, hexact⟩
    · simp only [Process.step, hheld, List.mem_append, List.mem_singleton] at hd
      rcases hd with hd | rfl
      · exact hgrows.keeps (h.counters d hd hreg)
      · exact hnew hreg
    · simp only [Process.step, hheld, List.mem_append, List.mem_singleton] at hd
      rcases hd with hd | rfl
      · exact h.held_local d hd
      · rfl
    · simp only [Process.step, hclients]
      exact h.registered
  · rw [hs] at hexact ⊢
    exact ⟨fun d hd => h.counters d (List.mem_of_mem_eraseIdx hd),
      fun d hd => h.held_local d (List.mem_of_mem_eraseIdx hd), h.registered, hexact⟩
  · rw [hs] at hexact ⊢
    have hc := List.mem_of_getElem? (heldAt_eq_some hx).1
    refine ⟨fun d hd hreg => ?_, fun d hd => h.held_local d (List.mem_of_mem_eraseIdx hd), ?_, hexact⟩
    · exact (p.reg.insert_grows (S := fun _ => True) F now c trivial).keeps
        (h.counters d (List.mem_of_mem_eraseIdx hd) hreg)
    · intro hF d hd
      rw [Registry.insert_clients, List.mem_append, List.mem_singleton] at hd
      rcases hd with hd | rfl
      · exact h.registered hF d hd
      · simp [hF, Client.isRelay, h.held_local c hc]
  · refine ⟨fun d hd hreg => ?_, h.held_local, fun hF d hd => ?_, hexact⟩
    · refine (p.reg.mem_series_reapDead F _).mpr ⟨h.counters d hd hreg, fun c hc _ hid => ?_⟩
      refine held_not_mem_ids hr hd ?_
      have hid : c.id = d.id := ClientId.ext hid
      rw [← hid]
      exact List.mem_map_of_mem hc
    · exact h.registered hF d (List.mem_of_mem_filter hd)
  · refine ⟨fun d hd hreg => ?_, fun d hd => ?_, fun hF d hd => ?_, hexact⟩
    · obtain ⟨c, hc, hid, -, hmetrics⟩ := exists_of_tickets hroll.tickets hd
      rw [← hid]
      exact hroll.grows.keeps (h.counters c hc (hmetrics.trans hreg))
    · obtain ⟨c, hc, -, horigin, -⟩ := exists_of_tickets hroll.tickets hd
      rw [← horigin]
      exact h.held_local c hc
    · have hmem : d.badge ∈ p.reg.badges := by
        rw [← hroll.badges]
        exact List.mem_map_of_mem hd
      obtain ⟨c, hc, hb⟩ := List.mem_map.mp hmem
      simp only [Client.badge, Prod.mk.injEq] at hb
      rw [← hb.2.2]
      exact h.registered hF c hc

end Ledger

/-- Every series is of a connected client, or of a held one with the registry's handle. -/
def Accounted (p : Process D) : Prop :=
  ∀ s ∈ p.reg.metrics.series, (∃ id ∈ p.reg.ids, id.raw = s.2) ∨
    ∃ c ∈ p.held, c.metrics = .registry ∧ c.id.raw = s.2

/-- The series of a client that is gone. -/
structure Leaked (n : ℕ) (p : Process D) : Prop where
  lt_counter : n < p.idCounter
  gone : ∀ c ∈ p.clients, c.id.raw ≠ n
  series : (.videoFramesDropped, n) ∈ p.reg.metrics.series

variable {peers : D → Finset ℕ} {p : Process D}

theorem accounted_step (hscores : F.activeSpeaker = true →
      ∀ s ∈ ActiveSpeakerDetector.peerScores p.reg.detector, ∃ id ∈ p.reg.ids, id.raw = s.1)
    (h : p.Accounted) {op : Op} (hop : op.KeepsOrigins) (hkeep : p.KeepsHandles op) :
    (p.step F op).Accounted := by
  rcases step_rolled F hop hscores with ⟨rtc, handle, rfl⟩ | ⟨id, j, c, rfl, hx, hs⟩ |
    ⟨id, now, j, c, rfl, hx, hs⟩ | rfl | hroll
  · obtain ⟨hheld, hclients, -, hgrows, -⟩ := p.clientNew_spec rtc handle
    intro s hs
    simp only [step, Registry.ids, hheld, hclients] at hs ⊢
    rcases hgrows.gains s hs with hs | ⟨rfl, hn⟩
    · refine (h s hs).imp_right ?_
      rintro ⟨c, hc, hreg⟩
      exact ⟨c, List.mem_append_left _ hc, hreg⟩
    · exact .inr ⟨_, List.mem_append_right _ (List.mem_singleton_self _), rfl, hn.symm⟩
  · rw [hs]
    intro s hs
    refine (h s hs).imp_right ?_
    rintro ⟨d, hd, hreg, hid⟩
    rcases List.mem_cons.mp ((heldAt_perm hx).subset hd) with rfl | hd
    · rw [hkeep _ hx] at hreg
      cases hreg
    · exact ⟨d, hd, hreg, hid⟩
  · rw [hs]
    intro s hs
    have hids := Registry.insert_ids F now p.reg c
    rcases (p.reg.insert_grows (S := fun n => n = c.id.raw) F now c rfl).gains s hs with hs | hs
    · rcases h s hs with ⟨id, hid, hn⟩ | ⟨d, hd, hreg, hid⟩
      · exact .inl ⟨id, by rw [hids]; exact List.mem_append_left _ hid, hn⟩
      · rcases List.mem_cons.mp ((heldAt_perm hx).subset hd) with rfl | hd
        · exact .inl ⟨d.id, by rw [hids]; simp, hid⟩
        · exact .inr ⟨d, hd, hreg, hid⟩
    · exact .inl ⟨c.id, by rw [hids]; simp, hs.symm⟩
  · intro s hs
    obtain ⟨hs, hdead⟩ := (p.reg.mem_series_reapDead F s).mp hs
    refine (h s hs).imp_left ?_
    rintro ⟨id, hid, hn⟩
    obtain ⟨c, hc, rfl⟩ := List.mem_map.mp hid
    refine ⟨c.id, List.mem_map_of_mem (List.mem_filter.mpr ⟨hc, ?_⟩), hn⟩
    by_contra halive
    exact hdead c hc (by simpa using halive) hn
  · intro s hs
    have hids := Registry.ids_of_badges hroll.badges
    rcases hroll.grows.gains s hs with hs | hs
    · rw [hids]
      refine (h s hs).imp_right ?_
      rintro ⟨c, hc, hreg, hid⟩
      obtain ⟨d, hd, hdid, -, hdreg⟩ := exists_of_tickets hroll.tickets.symm hc
      exact ⟨d, hd, hdreg.trans hreg, (congrArg ClientId.raw hdid).trans hid⟩
    · rw [hids]
      exact .inl hs

theorem Leaked.step {n : ℕ} (h : p.Leaked n) (hscores : F.activeSpeaker = true →
      ∀ s ∈ ActiveSpeakerDetector.peerScores p.reg.detector, ∃ id ∈ p.reg.ids, id.raw = s.1)
    {op : Op} (hop : op.KeepsOrigins) : (p.step F op).Leaked n := by
  obtain ⟨hlt, hgone, hseries⟩ := h
  simp only [clients, List.forall_mem_append] at hgone
  obtain ⟨hreg, hheld⟩ := hgone
  rcases step_rolled F hop hscores with ⟨rtc, handle, rfl⟩ | ⟨id, j, c, rfl, hx, hs⟩ |
    ⟨id, now, j, c, rfl, hx, hs⟩ | rfl | hroll
  · obtain ⟨hheld', hclients, hcounter, hgrows, -⟩ := p.clientNew_spec rtc handle
    refine ⟨?_, ?_, hgrows.keeps hseries⟩
    · simp only [Process.step, hcounter]
      omega
    · simp only [clients, Process.step, hclients, hheld', List.forall_mem_append,
        List.forall_mem_singleton]
      exact ⟨hreg, hheld, Nat.ne_of_gt hlt⟩
  · rw [hs]
    refine ⟨hlt, ?_, hseries⟩
    simp only [clients, List.forall_mem_append]
    exact ⟨hreg, fun d hd => hheld d (List.mem_of_mem_eraseIdx hd)⟩
  · rw [hs]
    refine ⟨hlt, ?_, (p.reg.insert_grows (S := fun _ => True) F now c trivial).keeps hseries⟩
    simp only [clients, Registry.insert_clients, List.forall_mem_append, List.forall_mem_singleton]
    exact ⟨⟨hreg, hheld c (List.mem_of_getElem? (heldAt_eq_some hx).1)⟩,
      fun d hd => hheld d (List.mem_of_mem_eraseIdx hd)⟩
  · refine ⟨hlt, ?_, (p.reg.mem_series_reapDead F _).mpr ⟨hseries, fun c hc _ => hreg c hc⟩⟩
    simp only [clients, List.forall_mem_append]
    exact ⟨fun c hc => hreg c (List.mem_of_mem_filter hc), hheld⟩
  · refine ⟨hroll.counter ▸ hlt, ?_, hroll.grows.keeps hseries⟩
    simp only [clients, List.forall_mem_append]
    constructor
    · intro d hd
      have hmem : d.id ∈ p.reg.ids := by
        rw [← Registry.ids_of_badges hroll.badges]
        exact List.mem_map_of_mem hd
      obtain ⟨c, hc, hid⟩ := List.mem_map.mp hmem
      rw [← hid]
      exact hreg c hc
    · intro d hd
      obtain ⟨c, hc, hid, -⟩ := exists_of_tickets hroll.tickets hd
      rw [← hid]
      exact hheld c hc

/-- Dropping a held client that carries the registry's handle leaks its drop counter. -/
theorem leaked_of_not_keepsHandles (hr : p.room.WellFormed) (h : p.Ledger F peers) {op : Op}
    (hkeep : ¬ p.KeepsHandles op) : ∃ n, (p.step F op).Leaked n := by
  cases op with
  | dropHeld id =>
    simp only [KeepsHandles, not_forall] at hkeep
    obtain ⟨⟨j, c⟩, hx, hne⟩ := hkeep
    have hc := List.mem_of_getElem? (heldAt_eq_some hx).1
    have hreg : c.metrics = .registry := by
      cases hm : c.metrics with
      | throwaway => exact absurd hm hne
      | registry => rfl
    have hs : p.step F (.dropHeld id) = { p with held := p.held.eraseIdx j } := by
      simp only [step, dropHeld, Option.mem_def.mp hx]
    have hperm : p.clients.Perm (c :: (p.reg.clients ++ p.held.eraseIdx j)) :=
      ((heldAt_perm hx).append_left _).trans List.perm_middle
    have hnodup := (hperm.map (·.id)).nodup_iff.mp (clients_nodup hr)
    rw [List.map_cons, List.nodup_cons] at hnodup
    refine ⟨c.id.raw, ?_⟩
    rw [hs]
    refine ⟨lt_idCounter hr (List.mem_append_right _ hc), fun d hd hid => ?_, h.counters c hc hreg⟩
    have hid : d.id = c.id := ClientId.ext hid
    exact hnodup.1 (hid ▸ List.mem_map_of_mem hd)
  | _ => exact absurd trivial hkeep

/-- Over any calls but `set_origin`, the series after a final sweep are of connected and held
clients exactly if no client that carries the registry's handle was dropped while held. -/
theorem seriesBounded_run_iff (laws : MembershipLaws peers)
    (hscores : ∀ d, ∀ s ∈ ActiveSpeakerDetector.peerScores d, s.1 ∈ peers d)
    (now : Instant) (ops : List Op) (hops : ∀ op ∈ ops, op.KeepsOrigins) :
    (run F (start now : Process D) (ops ++ [.reapDead])).SeriesBounded ↔
      Run.Along (step F) KeepsHandles (start now : Process D) ops := by
  let Inv (p : Process D) : Prop := p.room.WellFormed ∧ p.Ledger F peers
  have hstep : ∀ (p : Process D) (op : Op), Inv p → op.KeepsOrigins → Inv (p.step F op) :=
    fun p op hp hop => ⟨wellFormed_step F p op hp.1, hp.2.step laws hscores hp.1 hop⟩
  have hstart : Inv (start now : Process D) := by
    refine ⟨Room.wellFormed_empty, ?_, ?_, ?_, fun _ => laws.new⟩
    · simp [start]
    · simp [start]
    · simp [start, Registry.new]
  have horigins : Run.Along (step F) (fun _ op => op.KeepsOrigins) (start now : Process D) ops :=
    Run.along_of_forall hops _
  constructor
  · intro hbounded
    rw [Run.along_iff]
    intro pre op post hsplit
    by_contra hkeep
    have hpre : Inv (Run.run (step F) (start now : Process D) pre) := by
      refine Run.invariant hstep hstart (Run.along_of_forall (fun op hop => hops op ?_) _)
      rw [hsplit]
      exact List.mem_append_left _ hop
    have hmem : op ∈ ops := by simp [hsplit]
    obtain ⟨n, hleak⟩ := leaked_of_not_keepsHandles F hpre.1 hpre.2 hkeep
    -- What has leaked stays, to the end of the run and through the last sweep.
    have hkept : ∀ (q : Process D) (op : Op), Inv q ∧ q.Leaked n → op.KeepsOrigins →
        Inv (q.step F op) ∧ (q.step F op).Leaked n := fun q op hq hop =>
      ⟨hstep q op hq.1 hop, hq.2.step F (hq.1.2.scores hscores) hop⟩
    have hend := Run.invariant hkept (l := post ++ [.reapDead])
      ⟨hstep _ op hpre (hops op hmem), hleak⟩ (Run.along_of_forall (fun i hi => ?_) _)
    · have hrun : run F (start now : Process D) (ops ++ [.reapDead]) =
          Run.run (step F) ((Run.run (step F) (start now : Process D) pre).step F op)
            (post ++ [.reapDead]) := by
        rw [run, hsplit, List.append_assoc, Run.run_append]
        rfl
      rw [hrun] at hbounded
      obtain ⟨c, hc, hid⟩ := hbounded _ hend.2.series
      exact hend.2.gone c hc hid
    · rcases List.mem_append.mp hi with hi | hi
      · exact hops i (by simp [hsplit, hi])
      · rw [List.mem_singleton.mp hi]
        trivial
  · intro hkeep
    have hkept : ∀ (q : Process D) (op : Op), Inv q ∧ q.Accounted →
        op.KeepsOrigins ∧ q.KeepsHandles op → Inv (q.step F op) ∧ (q.step F op).Accounted :=
      fun q op hq hop => ⟨hstep q op hq.1 hop.1,
        accounted_step F (hq.1.2.scores hscores) hq.2 hop.1 hop.2⟩
    have hacc := Run.invariant hkept
      ⟨hstart, by simp [Accounted, start, Registry.new, SfuMetrics.newDefault]⟩
      (horigins.and hkeep)
    have hkeeps : Op.reapDead.KeepsOrigins := trivial
    have hlast := accounted_step F (hacc.1.2.scores hscores) hacc.2 hkeeps trivial
    rw [run, Run.run_concat]
    intro s hs
    rcases hlast s hs with ⟨id, hid, hn⟩ | ⟨c, hc, -, hn⟩
    · obtain ⟨c, hc, rfl⟩ := List.mem_map.mp hid
      exact ⟨c, List.mem_append_left _ hc, hn⟩
    · exact ⟨c, List.mem_append_right _ hc, hn⟩

/-- A client is built with the registry's handle and dropped. -/
theorem seriesBounded_fails : ¬ (run .full (start 0 : Process PeerDetector)
    [.clientNew .new .registry, .dropHeld ⟨0⟩, .reapDead]).SeriesBounded := by
  decide

/-- A client is built with the registry's handle, inserted, and disconnects. -/
theorem seriesBounded_run_iff_reaped : (run .full (start 0 : Process PeerDetector)
    ([.clientNew .new .registry, .insert ⟨0⟩ 0, .connection ⟨0⟩ false []] ++
      [.reapDead])).SeriesBounded :=
  (seriesBounded_run_iff .full PeerDetector.membershipLaws (fun d s hs => by cases hs) 0 _
    (by decide)).mpr (by decide)

end Process
end SfuKit
