import SfuKit.Estimator.Samples

/-! # Congestion that is not there

Every subscriber's detector gets one stream of samples, merged from all publishers. On a
perfect network a sample's offset is the constant of its publisher, and a change of
publisher is a jump of the offset.
-/
namespace SfuKit

open Library

/-- On a perfect network every video packet of publisher `id` arrives `κ id` later than
sent, on unrelated clocks, and GoogCC is fed by `poll_all` alone. -/
def Op.Perfect (epoch : Instant) (κ : ClientId → ℚ) : Op → Prop
  | .pollAll now feed => ∀ id, ∀ x ∈ feed id, ∀ data, x.2 = some (.event (.mediaData data)) →
      (SfuMediaPayload.fromStr0m data).isVideo = true →
        offset (asMillisF64 (durationSince now epoch),
          (SfuMediaPayload.fromStr0m data).rtpSendMs) = κ id
  | .googccOnReceive .. => False
  | _ => True

theorem samples_feed (id : ClientId) (l : List Client) (hl : (l.map (·.id)).Nodup) (a s : ℚ) :
    samples id (l.map fun c => .sample c.id a s) = if id ∈ l.map (·.id) then [(a, s)] else [] := by
  induction l with
  | nil => rfl
  | cons c rest ih =>
    rw [List.map_cons, List.nodup_cons] at hl
    have ih := ih hl.2
    unfold samples at ih ⊢
    rw [List.map_cons, List.filterMap_cons, ih]
    by_cases h : c.id = id
    · subst h
      simp [Obs.sampleOf, hl.1]
    · simp [Obs.sampleOf, h, Ne.symm h]

namespace Registry
variable {D : Type*} (F : Features) (now : Instant)

/-- The end of `poll_all` gives one sample to every connected client with GoogCC enabled,
and changes nothing for anybody else. -/
theorem feedGoogcc_cases {r : Registry D} (hnodup : r.ids.Nodup) (x : ℚ × ℚ) (id : ClientId) :
    (∃ g, id ∈ r.ids ∧ r.bandwidth.googcc id = some g ∧
      (r.feedGoogcc x.1 x.2).bandwidth.googcc id = some (g.onReceive x.1 x.2 0).1 ∧
      samples id (r.feedGoogcc x.1 x.2).history = samples id r.history ++ [x]) ∨
    ((r.feedGoogcc x.1 x.2).bandwidth.googcc id = r.bandwidth.googcc id ∧
      samples id (r.feedGoogcc x.1 x.2).history = samples id r.history) := by
  have hactive : ∀ id, r.bandwidth.googccActive id = (r.bandwidth.googcc id).isSome := by
    intro id
    unfold BandwidthEstimator.googccActive BandwidthEstimator.googcc
    cases r.bandwidth.subscribers.lookup id <;> rfl
  have hgoogcc := BandwidthEstimator.googcc_feed r.bandwidth id r.clients hnodup x.1 x.2
  have hfed : ((r.clients.filter fun c => r.bandwidth.googccActive c.id).map (·.id)).Nodup :=
    hnodup.sublist (List.filter_sublist.map _)
  have hsamples : samples id (r.feedGoogcc x.1 x.2).history = samples id r.history ++
      if id ∈ (r.clients.filter fun c => r.bandwidth.googccActive c.id).map (·.id)
        then [x] else [] := by
    rw [← samples_feed id _ hfed]
    exact samples_append ..
  have hmem : id ∈ (r.clients.filter fun c => r.bandwidth.googccActive c.id).map (·.id) ↔
      id ∈ r.ids ∧ (r.bandwidth.googcc id).isSome = true := by
    simp only [List.mem_map, List.mem_filter, ids, hactive]
    constructor
    · rintro ⟨c, ⟨hc, hsome⟩, rfl⟩
      exact ⟨⟨c, hc, rfl⟩, hsome⟩
    · rintro ⟨⟨c, hc, rfl⟩, hsome⟩
      exact ⟨c, ⟨hc, hsome⟩, rfl⟩
  by_cases hid : id ∈ r.ids
  · cases hg : r.bandwidth.googcc id with
    | none =>
      right
      rw [hsamples, if_neg (by simp [hmem, hg]), List.append_nil]
      refine ⟨hgoogcc.trans ?_, rfl⟩
      rw [hg, Option.map_none, ite_self]
    | some g =>
      left
      rw [hsamples, if_pos (hmem.mpr ⟨hid, by rw [hg]; rfl⟩)]
      refine ⟨g, hid, rfl, hgoogcc.trans ?_, rfl⟩
      rw [hg]
      exact if_pos hid
  · right
    rw [hsamples, if_neg fun h => hid (hmem.mp h).1, List.append_nil]
    exact ⟨hgoogcc.trans (if_neg hid), rfl⟩

/-- On a perfect network a pass feeds one sample at most, with a publisher's constant as
its offset. -/
theorem pollAll_eq_feed [ActiveSpeakerDetector D] (r : Registry D) {feed : Feed}
    {κ : ClientId → ℚ} (hperfect : (Op.pollAll now feed).Perfect r.bweEpoch κ)
    (nextAlloc : WeakTrack) : ∃ r₁, Quiet r r₁ ∧ r₁.ids = r.ids ∧
      ((r.pollAll F now feed nextAlloc).reg = r₁ ∨ ∃ x publisher, offset x = κ publisher ∧
        (r.pollAll F now feed nextAlloc).reg = r₁.feedGoogcc x.1 x.2) := by
  let P : PollState D → Prop := fun st => Quiet r st.reg ∧ st.reg.ids = r.ids ∧
    ∀ x ∈ st.lastVideoTiming, ∃ publisher, offset x = κ publisher
  have hstart : P ⟨r, nextAlloc, now + fromMillis 100, none⟩ :=
    ⟨.refl r, rfl, fun x hx => by cases hx⟩
  have hloop := pollClients_invariant F now feed (P := P) ?_ hstart
  · obtain ⟨hquiet, hids, htiming⟩ := hloop
    refine ⟨_, hquiet, hids, ?_⟩
    unfold pollAll
    dsimp only
    split
    · rename_i a s hlast
      obtain ⟨publisher, hpub⟩ := htiming (a, s) hlast
      exact .inr ⟨(a, s), publisher, hpub, rfl⟩
    · exact .inl rfl
  · rintro i st c x hc - hx ⟨hquiet, hids, htiming⟩
    refine ⟨hquiet.trans (quiet_pollStep F now i st x),
      (ids_of_badges (pollStep_badges F now i st x)).trans hids, ?_⟩
    rcases pollStep_lastVideoTiming F now hc x with h | ⟨data, hdata, hvideo, h⟩
    · rw [h]
      exact htiming
    · rw [h]
      intro y hy
      obtain rfl := Option.mem_some_iff.mp hy
      rw [hquiet.epoch]
      exact ⟨c.id, hperfect c.id x hx data hdata hvideo⟩

end Registry

namespace Process
variable {D : Type*}

def googcc (p : Process D) (id : ClientId) : Option GoogCcEstimator := p.reg.bandwidth.googcc id

/-- Between two states no detector reports overuse and no target decreases. -/
def NoPhantom (p q : Process D) : Prop :=
  ∀ id, ∀ g' ∈ q.googcc id, g'.trendline.overuse = false ∧
    ∀ g ∈ p.googcc id, g.currentBps ≤ g'.currentBps

def offsets (p : Process D) (id : ClientId) : List ℚ := (samples id p.reg.history).map offset

/-- No connected subscriber has seen steep offsets. -/
def NoJump (p : Process D) : Prop := ∀ id ∈ p.reg.ids, ¬ Steep (p.offsets id)

instance (p : Process D) : Decidable p.NoJump :=
  inferInstanceAs (Decidable (∀ id ∈ p.reg.ids, ¬ Steep (p.offsets id)))

/-- A client that is held, or yet to be built. -/
def Waiting (p : Process D) (id : ClientId) : Prop :=
  id ∈ p.held.map (·.id) ∨ p.idCounter ≤ id.raw

theorem Waiting.not_mem_ids {p : Process D} {id : ClientId} (h : p.Waiting id)
    (hr : p.room.WellFormed) : id ∉ p.reg.ids := by
  rcases h with h | h
  · obtain ⟨c, hc, rfl⟩ := List.mem_map.mp h
    exact held_not_mem_ids hr hc
  · exact fresh_not_mem_ids hr h

/-- What a call does to the GoogCC estimator and the samples of one client. -/
inductive GoogccEffect (κ : ClientId → ℚ) (p q : Process D) (id : ClientId) : Prop
  | same (hg : q.googcc id = p.googcc id)
      (hs : samples id q.reg.history = samples id p.reg.history)
  | fed (g : GoogCcEstimator) (x : ℚ × ℚ) (publisher : ClientId) (hid : id ∈ p.reg.ids)
      (hg : p.googcc id = some g) (hg' : q.googcc id = some (g.onReceive x.1 x.2 0).1)
      (hs : samples id q.reg.history = samples id p.reg.history ++ [x])
      (hx : offset x = κ publisher)
  | enabled (hg : p.googcc id = none) (hg' : q.googcc id = some .new)
      (hs : samples id q.reg.history = samples id p.reg.history)
  | dropped (hid : id ∉ q.reg.ids) (hg' : q.googcc id = none)
      (hs : samples id q.reg.history = samples id p.reg.history)

/-- What a call does to the GoogCC estimators, and who joins and leaves by it. -/
structure GoogccStep (κ : ClientId → ℚ) (p q : Process D) : Prop where
  effect : ∀ id, GoogccEffect κ p q id
  joins : ∀ id ∈ q.reg.ids, id ∈ p.reg.ids ∨ p.Waiting id
  leaves : ∀ id ∈ p.reg.ids, id ∉ q.reg.ids → q.googcc id = none
  waiting : ∀ id, q.Waiting id → p.Waiting id
  epoch : q.reg.bweEpoch = p.reg.bweEpoch

variable {κ : ClientId → ℚ} {p q : Process D}

theorem GoogccStep.of_quiet (h : p.reg.Quiet q.reg) (hids : q.reg.ids = p.reg.ids)
    (hheld : ∀ id ∈ q.held.map (·.id), id ∈ p.held.map (·.id))
    (hcounter : q.idCounter = p.idCounter) : GoogccStep κ p q where
  effect id := .same (h.googcc id) (h.samples id)
  joins _ hid := .inl (hids ▸ hid)
  leaves _ hid hno := absurd (hids ▸ hid) hno
  waiting id hw := hw.imp (hheld id) fun hle => hcounter ▸ hle
  epoch := h.epoch

theorem GoogccStep.of_reg_quiet (h : p.reg.Quiet q.reg) (hids : q.reg.ids = p.reg.ids)
    (hheld : q.held = p.held) (hcounter : q.idCounter = p.idCounter) : GoogccStep κ p q :=
  .of_quiet h hids (fun _ hid => hheld ▸ hid) hcounter

theorem GoogccStep.metricsCalls (h : GoogccStep κ p q) (handle : MetricsHandle)
    (calls : List MetricCall) : GoogccStep κ p (q.metricsCalls handle calls) := by
  cases handle with
  | throwaway => exact h
  | registry =>
    refine ⟨fun id => ?_, h.joins, h.leaves, h.waiting, h.epoch⟩
    cases h.effect id with
    | same hg hs => exact .same hg hs
    | fed g x publisher hid hg hg' hs hx => exact .fed g x publisher hid hg hg' hs hx
    | enabled hg hg' hs => exact .enabled hg hg' hs
    | dropped hid hg' hs => exact .dropped hid hg' hs

theorem googccStep_onClient (id : ClientId) {f : Client → Client} (hf : ∀ c, (f c).id = c.id) :
    GoogccStep κ p (p.onClient id f) := by
  have hheld : (p.onClient id f).held.map (·.id) = p.held.map (·.id) := by
    simp only [onClient, updateClient, List.map_map]
    apply List.map_congr_left
    intro c _
    simp only [Function.comp_apply]
    split_ifs
    · exact hf c
    · rfl
  exact .of_quiet (.of_eq rfl rfl rfl) (p.onClient_map id hf) (fun i hi => hheld ▸ hi) rfl

section Step
variable [ActiveSpeakerDetector D] (F : Features)

theorem googccStep_insert (id : ClientId) (now : Instant) :
    GoogccStep κ p (p.step F (.insert id now)) := by
  simp only [step, insert]
  cases hheld : p.heldAt id with
  | none => exact .of_reg_quiet (.refl _) rfl rfl rfl
  | some x =>
    obtain ⟨j, c⟩ := x
    obtain ⟨hj, -⟩ := heldAt_eq_some hheld
    have hids : ∀ i, i ∈ (p.reg.insert F now c).ids ↔ i ∈ p.reg.ids ∨ i = c.id := by
      intro i
      rw [Registry.insert_ids, List.mem_append, List.mem_singleton]
    refine ⟨fun i => .same rfl rfl, fun i hi => ?_, fun i hi hno => ?_, fun i hw => ?_, rfl⟩
    · refine ((hids i).mp hi).imp_right fun h => .inl ?_
      rw [h]
      exact List.mem_map_of_mem (List.mem_of_getElem? hj)
    · exact absurd ((hids i).mpr (.inl hi)) hno
    · refine hw.imp (fun h => ?_) fun h => h
      obtain ⟨d, hd, rfl⟩ := List.mem_map.mp h
      exact List.mem_map_of_mem (List.mem_of_mem_eraseIdx hd)

theorem googccStep_reapDead (hF : F.kalmanBwe = true) (hr : p.room.WellFormed) :
    GoogccStep κ p (p.step F .reapDead) := by
  have hgoogcc : ∀ id, (p.step F .reapDead).googcc id =
      if id ∈ (p.reg.clients.filter fun c => !c.isAlive).map (·.id) then none
      else p.googcc id := by
    intro id
    simp only [googcc, step, Registry.reapDead, hF, if_true]
    exact BandwidthEstimator.googcc_reap _ id _
  have hids : ∀ id, id ∈ (p.step F .reapDead).reg.ids ↔
      ∃ c ∈ p.reg.clients, c.isAlive = true ∧ c.id = id := by
    intro id
    simp [step, Registry.reapDead, Registry.ids, and_assoc]
  refine ⟨fun id => ?_, fun id hid => ?_, fun id hid hno => ?_, fun id hw => hw, rfl⟩
  · by_cases hdead : id ∈ (p.reg.clients.filter fun c => !c.isAlive).map (·.id)
    · refine .dropped (fun hid => ?_) (by rw [hgoogcc, if_pos hdead]) rfl
      obtain ⟨c, hc, halive, rfl⟩ := (hids id).mp hid
      obtain ⟨d, hd, hdid⟩ := List.mem_map.mp hdead
      obtain ⟨hd, hgone⟩ := List.mem_filter.mp hd
      obtain rfl := List.inj_on_of_nodup_map (ids_nodup hr) hd hc hdid
      rw [halive] at hgone
      cases hgone
    · exact .same (by rw [hgoogcc, if_neg hdead]) rfl
  · obtain ⟨c, hc, -, rfl⟩ := (hids id).mp hid
    exact .inl (List.mem_map_of_mem hc)
  · obtain ⟨c, hc, rfl⟩ := List.mem_map.mp hid
    rw [hgoogcc, if_pos]
    refine List.mem_map_of_mem (List.mem_filter.mpr ⟨hc, ?_⟩)
    cases halive : c.isAlive with
    | true => exact absurd ((hids c.id).mpr ⟨c, hc, halive, rfl⟩) hno
    | false => rfl

theorem googccStep_pollAll (hr : p.room.WellFormed) {now : Instant} {feed : Feed}
    (hperfect : (Op.pollAll now feed).Perfect p.reg.bweEpoch κ) :
    GoogccStep κ p (p.step F (.pollAll now feed)) := by
  obtain ⟨r₁, hquiet, hids, hreg⟩ := p.reg.pollAll_eq_feed F now hperfect p.nextAlloc
  have hstep : (p.step F (.pollAll now feed)).reg = (p.reg.pollAll F now feed p.nextAlloc).reg := rfl
  rcases hreg with hreg | ⟨x, publisher, hx, hreg⟩
  · refine .of_reg_quiet ?_ ?_ rfl rfl
    · rw [hstep, hreg]
      exact hquiet
    · rw [hstep, hreg]
      exact hids
  · have hids' : (p.step F (.pollAll now feed)).reg.ids = p.reg.ids := by
      rw [hstep, hreg]
      exact hids
    have hnodup : r₁.ids.Nodup := by
      rw [hids]
      exact ids_nodup hr
    refine ⟨fun id => ?_, fun id hid => .inl (hids' ▸ hid), fun id hid hno =>
      absurd (hids' ▸ hid) hno, fun id hw => hw, ?_⟩
    · rcases Registry.feedGoogcc_cases hnodup x id with ⟨g, hid, hg, hg', hs⟩ | ⟨hg, hs⟩
      · refine .fed g x publisher (hids ▸ hid) ((hquiet.googcc id).symm.trans hg) ?_ ?_ hx
        · rw [googcc, hstep, hreg]
          exact hg'
        · rw [hstep, hreg, hs, hquiet.samples]
      · refine .same ?_ ?_
        · rw [googcc, hstep, hreg]
          exact hg.trans (hquiet.googcc id)
        · rw [hstep, hreg, hs, hquiet.samples]
    · rw [hstep, hreg]
      exact hquiet.epoch

theorem googccStep_enable (id : ClientId) : GoogccStep κ p (p.step F (.enableGoogcc id)) := by
  simp only [step]
  split_ifs
  · refine ⟨fun i => ?_, fun i hi => .inl hi, fun i hi hno => absurd hi hno, fun i hw => hw, rfl⟩
    have hgoogcc := p.reg.bandwidth.googcc_enable id i
    by_cases hi : i = id
    · subst hi
      rw [if_pos rfl] at hgoogcc
      cases hg : p.reg.bandwidth.googcc i with
      | none =>
        rw [hg] at hgoogcc
        exact .enabled hg hgoogcc rfl
      | some g =>
        rw [hg] at hgoogcc
        exact .same (hgoogcc.trans hg.symm) rfl
    · rw [if_neg hi] at hgoogcc
      exact .same hgoogcc rfl
  · exact .of_reg_quiet (.refl _) rfl rfl rfl

/-- What every call does to the GoogCC estimators. -/
theorem googccStep_step (hF : F.kalmanBwe = true) (hr : p.room.WellFormed) {op : Op}
    (hop : op.Perfect p.reg.bweEpoch κ) : GoogccStep κ p (p.step F op) := by
  have hnotice (hquiet : op.isNotice = true) : GoogccStep κ p (p.step F op) := by
    obtain ⟨detector, metrics, notices, -, hstep⟩ := p.step_notice F hquiet
    rw [hstep]
    exact .of_reg_quiet (.of_eq rfl rfl rfl) rfl rfl rfl
  cases op with
  | clientNew rtc metrics =>
    have hbuilt : GoogccStep κ p
        { p with held := p.held ++ [(Client.new ⟨p.idCounter⟩ rtc metrics).1]
                 idCounter := p.idCounter + 1 } := by
      refine ⟨fun i => .same rfl rfl, fun i hi => .inl hi, fun i hi hno => absurd hi hno,
        fun i hw => ?_, rfl⟩
      rcases hw with hw | hw
      · rw [List.map_append, List.mem_append] at hw
        refine hw.imp (fun h => h) fun h => ?_
        obtain rfl := List.mem_singleton.mp h
        exact le_rfl
      · exact .inr (Nat.le_of_succ_le hw)
    exact hbuilt.metricsCalls metrics _
  | heldPoll id clock result =>
    simp only [step, heldPoll]
    cases hheld : p.heldAt id with
    | none => exact .of_reg_quiet (.refl _) rfl rfl rfl
    | some x =>
      obtain ⟨j, c⟩ := x
      obtain ⟨hj, -⟩ := heldAt_eq_some hheld
      have hid : (c.pollOutput p.reg.heap p.nextAlloc clock result).1.id = c.id :=
        congrArg Prod.fst (pollOutput_badge c clock p.reg.heap p.nextAlloc result)
      have hmap := map_set_eq (fun c : Client => c.id) p.held hj hid
      have hpolled : GoogccStep κ p
          { p with held := p.held.set j (c.pollOutput p.reg.heap p.nextAlloc clock result).1
                   nextAlloc := p.nextAlloc + 1 } :=
        .of_quiet (.refl _) rfl (fun i hi => by rwa [hmap] at hi) rfl
      exact hpolled.metricsCalls _ _
  | setOrigin id origin => exact googccStep_onClient id fun _ => rfl
  | setDesiredLayer id rid => exact googccStep_onClient id fun _ => rfl
  | connection id alive writers => exact googccStep_onClient id fun _ => rfl
  | dropHeld id =>
    simp only [step, dropHeld]
    split
    · exact .of_reg_quiet (.refl _) rfl rfl rfl
    · refine .of_quiet (.refl _) rfl (fun i hi => ?_) rfl
      obtain ⟨d, hd, rfl⟩ := List.mem_map.mp hi
      exact List.mem_map_of_mem (List.mem_of_mem_eraseIdx hd)
  | insert id now => exact googccStep_insert F id now
  | pollAll now feed => exact googccStep_pollAll F hr hop
  | fanoutPending now =>
    exact .of_reg_quiet (Registry.quiet_fanoutPending F now p.reg)
      (Registry.ids_of_badges (Registry.fanoutPending_badges F now p.reg)) rfl rfl
  | updatePacerLayers origin now =>
    simp only [step]
    split_ifs
    · exact .of_reg_quiet (Registry.quiet_updatePacerLayers now p.reg origin)
        (Registry.ids_of_badges (Registry.updatePacerLayers_badges now p.reg origin)) rfl rfl
    · exact .of_reg_quiet (.refl _) rfl rfl rfl
  | reapDead => exact googccStep_reapDead F hF hr
  | onTwccFeedback id feedback now =>
    simp only [step, hF, if_true]
    exact .of_reg_quiet (.modify id (fun s => ingestTwcc s feedback now)
      (fun s => ingestTwcc_googcc s feedback now) rfl rfl rfl) rfl rfl rfl
  | recordSendTime id seq sentAt =>
    simp only [step, hF, if_true]
    exact .of_reg_quiet (.modify id
      (fun s => { s with sendTimes := recordSendTimes s.sendTimes seq sentAt }) (fun _ => rfl)
      rfl rfl rfl) rfl rfl rfl
  | recordNativeEstimate id bps =>
    simp only [step, hF, if_true]
    exact .of_reg_quiet (.modify id (fun s => { s with nativeEstimateBps := some bps })
      (fun _ => rfl) rfl rfl rfl) rfl rfl rfl
  | enableGoogcc id => exact googccStep_enable F id
  | googccOnReceive id a s l => exact hop.elim
  | emitPublisherLayerHints | clientBudgetHint | recordAudioLevel | tickActiveSpeaker
    | tickSpeakerScores => exact hnotice rfl

end Step

/-- The estimator of a connected subscriber is what its samples make of a new one, anybody
else's is new, and the samples have publishers. -/
structure Replayed (κ : ClientId → ℚ) (epoch : Instant) (p : Process D) : Prop where
  connected : ∀ id ∈ p.reg.ids, (p.googcc id = none ∧ samples id p.reg.history = []) ∨
    p.googcc id = some (.replay (samples id p.reg.history))
  away : ∀ id, id ∉ p.reg.ids → ∀ g ∈ p.googcc id, g = .new
  waiting : ∀ id, p.Waiting id → samples id p.reg.history = []
  publishers : ∀ id, ∃ π : List ClientId, p.offsets id = π.map κ
  epoch : p.reg.bweEpoch = epoch

namespace Replayed
variable {epoch : Instant}

theorem step (h : p.Replayed κ epoch) (hr : p.room.WellFormed) (hpq : GoogccStep κ p q) :
    q.Replayed κ epoch where
  connected id hid := by
    rcases hpq.joins id hid with hin | hw
    · cases hpq.effect id with
      | same hg hs =>
        rw [hg, hs]
        exact h.connected id hin
      | fed g x publisher _ hg hg' hs _ =>
        right
        rcases h.connected id hin with ⟨hnone, -⟩ | hsome
        · rw [hg] at hnone
          cases hnone
        · obtain rfl := Option.some.inj (hg.symm.trans hsome)
          rw [hg', hs, GoogCcEstimator.replay_concat]
      | enabled hg hg' hs =>
        right
        rcases h.connected id hin with ⟨-, hnil⟩ | hsome
        · rw [hg', hs, hnil, GoogCcEstimator.replay_nil]
        · rw [hg] at hsome
          cases hsome
      | dropped hno _ _ => exact absurd hid hno
    · -- A newcomer has taken no samples, and its estimator, if enabled already, is new.
      have hnil := h.waiting id hw
      have hout := hw.not_mem_ids hr
      cases hpq.effect id with
      | same hg hs =>
        rw [hg, hs, hnil]
        cases hgp : p.googcc id with
        | none => exact .inl ⟨rfl, rfl⟩
        | some g =>
          obtain rfl := h.away id hout g hgp
          exact .inr rfl
      | fed _ _ _ hin _ _ _ _ => exact absurd hin hout
      | enabled _ hg' hs =>
        right
        rw [hg', hs, hnil, GoogCcEstimator.replay_nil]
      | dropped hno _ _ => exact absurd hid hno
  away id hno g hgq := by
    by_cases hin : id ∈ p.reg.ids
    · rw [hpq.leaves id hin hno] at hgq
      cases hgq
    · cases hpq.effect id with
      | same hg _ => exact h.away id hin g (hg ▸ hgq)
      | fed _ _ _ hin' _ _ _ _ => exact absurd hin' hin
      | enabled _ hg' _ =>
        rw [hg'] at hgq
        exact (Option.some.inj hgq).symm
      | dropped _ hnone _ =>
        rw [hnone] at hgq
        cases hgq
  waiting id hw := by
    have hwp := hpq.waiting id hw
    have hnil := h.waiting id hwp
    cases hpq.effect id with
    | same _ hs => rw [hs, hnil]
    | fed _ _ _ hin _ _ _ _ => exact absurd hin (hwp.not_mem_ids hr)
    | enabled _ _ hs => rw [hs, hnil]
    | dropped _ _ hs => rw [hs, hnil]
  publishers id := by
    obtain ⟨π, hπ⟩ := h.publishers id
    have hsame : samples id q.reg.history = samples id p.reg.history →
        ∃ π : List ClientId, q.offsets id = π.map κ := by
      intro hs
      exact ⟨π, by rw [offsets, hs]; exact hπ⟩
    cases hpq.effect id with
    | same _ hs => exact hsame hs
    | fed _ x publisher _ _ _ hs hx =>
      refine ⟨π ++ [publisher], ?_⟩
      rw [offsets, hs, List.map_append, List.map_append, List.map_singleton, List.map_singleton, hx]
      exact congrArg (· ++ [κ publisher]) hπ
    | enabled _ _ hs => exact hsame hs
    | dropped _ _ hs => exact hsame hs
  epoch := hpq.epoch.trans h.epoch

theorem noPhantom_iff (h : p.Replayed κ epoch) (hr : p.room.WellFormed) (hpq : GoogccStep κ p q) :
    NoPhantom p q ↔ q.NoJump := by
  have hq := h.step hr hpq
  constructor
  · intro hno id hid hsteep
    rcases hq.connected id hid with ⟨-, hnil⟩ | hsome
    · rw [offsets, hnil] at hsteep
      exact absurd hsteep.length_le (by decide)
    · have hover := (GoogCcEstimator.overuse_replay _).mpr hsteep
      rw [(hno id _ hsome).1] at hover
      cases hover
  · intro hjump id g' hg'
    have hcalm : g'.trendline.overuse = false := by
      by_cases hid : id ∈ q.reg.ids
      · rcases hq.connected id hid with ⟨hnone, -⟩ | hsome
        · rw [hnone] at hg'
          cases hg'
        · obtain rfl := Option.some.inj (hg'.symm.trans hsome)
          rw [Bool.eq_false_iff]
          exact fun hover => hjump id hid ((GoogCcEstimator.overuse_replay _).mp hover)
      · obtain rfl := hq.away id hid g' hg'
        rfl
    refine ⟨hcalm, fun g hg => ?_⟩
    cases hpq.effect id with
    | same heq _ =>
      obtain rfl := Option.some.inj (hg.symm.trans (heq.symm.trans hg'))
      exact le_rfl
    | fed g₀ x _ hid hgp hgq _ _ =>
      obtain rfl := Option.some.inj (hgp.symm.trans hg)
      obtain rfl := Option.some.inj (hg'.symm.trans hgq)
      have hbounded : g₀.aimd.Bounded := by
        rcases h.connected id hid with ⟨hnone, -⟩ | hsome
        · rw [hgp] at hnone
          cases hnone
        · obtain rfl := Option.some.inj (hgp.symm.trans hsome)
          exact GoogCcEstimator.replay_bounded _
      exact GoogCcEstimator.currentBps_le_onReceive hbounded x.1 x.2 hcalm
    | enabled hnone _ _ =>
      rw [hnone] at hg
      cases hg
    | dropped _ hnone _ =>
      rw [hnone] at hg'
      cases hg'

end Replayed

section Run
variable [ActiveSpeakerDetector D] (F : Features)

theorem replayed_start (now : Instant) : (start now : Process D).Replayed κ now where
  connected id hid := by cases hid
  away id _ g hg := by cases hg
  waiting id _ := rfl
  publishers id := ⟨[], rfl⟩
  epoch := rfl

variable {F} in
theorem replayed_run (hF : F.kalmanBwe = true) (now : Instant) (ops : List Op)
    (hops : ∀ op ∈ ops, op.Perfect now κ) : (run F (start now : Process D) ops).Replayed κ now := by
  induction ops using List.reverseRecOn with
  | nil => exact replayed_start now
  | append_singleton ops op ih =>
    have hprev := ih fun o ho => hops o (List.mem_append_left _ ho)
    have hrun : run F (start now : Process D) (ops ++ [op]) =
        (run F (start now : Process D) ops).step F op := Run.run_concat ..
    have hr := wellFormed_run (D := D) F now ops
    have hop : op.Perfect (run F (start now : Process D) ops).reg.bweEpoch κ := by
      rw [hprev.epoch]
      exact hops op (by simp)
    rw [hrun]
    exact hprev.step hr (googccStep_step F hF hr hop)

/-- Over a perfect network every subscriber's samples come from publishers and have their
constants as offsets. No call reports overuse or lowers a target exactly if no call leaves
the last of these constants steep for a connected subscriber. -/
theorem noPhantom_run_iff (hF : F.kalmanBwe = true) (κ : ClientId → ℚ) (now : Instant)
    (ops : List Op) (hops : ∀ op ∈ ops, op.Perfect now κ) :
    (∀ id, ∃ π : List ClientId,
      (run F (start now : Process D) ops).offsets id = π.map κ) ∧
    (Run.Along (step F) (fun p op => NoPhantom p (p.step F op)) (start now : Process D) ops ↔
      Run.Along (step F) (fun p op => (p.step F op).NoJump) (start now : Process D) ops) := by
  refine ⟨(replayed_run hF now ops hops).publishers, ?_⟩
  rw [Run.along_iff, Run.along_iff]
  refine forall_congr' fun pre => forall_congr' fun op => forall_congr' fun post =>
    forall_congr' fun hsplit => ?_
  have hpre : (run F (start now : Process D) pre).Replayed κ now :=
    replayed_run hF now pre fun o ho => hops o (hsplit ▸ List.mem_append_left _ ho)
  have hr := wellFormed_run (D := D) F now pre
  have hop : op.Perfect (run F (start now : Process D) pre).reg.bweEpoch κ := by
    rw [hpre.epoch]
    exact hops op (by rw [hsplit]; simp)
  exact hpre.noPhantom_iff hr (googccStep_step F hF hr hop)

end Run

/-- One publisher sends one video packet with this timestamp, in milliseconds. -/
def onePacket (publisher : ClientId) (sendMs : ℕ) : Feed := fun id =>
  if id = publisher then
    [(0, some (.event (.mediaData
      ⟨⟨0⟩, ⟨96⟩, none, [], 0, true, ⟨sendMs * 90, 90000⟩, ⟨0, true⟩, none, none⟩)))]
  else []

theorem onePacket_perfect (epoch now : Instant) (κ : ClientId → ℚ) (publisher : ClientId)
    (sendMs : ℕ) (h : asMillisF64 (durationSince now epoch) - sendMs = κ publisher) :
    (Op.pollAll now (onePacket publisher sendMs)).Perfect epoch κ := by
  intro id x hx data hdata _
  unfold onePacket at hx
  split_ifs at hx with hid
  · obtain rfl := List.mem_singleton.mp hx
    cases hdata
    rw [hid, ← h]
    simp only [offset, SfuMediaPayload.rtpSendMs, SfuMediaPayload.fromStr0m, MediaTime.asSeconds]
    push_cast
    ring
  · cases hx

/-- Two publishers whose constants lie 10 ms apart. -/
theorem noPhantom_run_iff_close :
    let F := Features.full
    Run.Along (step F) (fun p op => NoPhantom p (p.step F op)) (start 0 : Process PeerDetector)
      [.clientNew .new .throwaway, .clientNew .new .throwaway, .clientNew .new .throwaway,
        .insert ⟨0⟩ 0, .insert ⟨1⟩ 0, .insert ⟨2⟩ 0, .enableGoogcc ⟨2⟩,
        .pollAll 20000000 (onePacket ⟨0⟩ 30), .pollAll 40000000 (onePacket ⟨0⟩ 50),
        .pollAll 60000000 (onePacket ⟨0⟩ 70), .pollAll 80000000 (onePacket ⟨1⟩ 80)] := by
  intro F
  refine (noPhantom_run_iff (D := PeerDetector) F rfl (fun id => if id = ⟨0⟩ then -10 else 0)
    0 _ ?_).2.mpr (by decide +kernel)
  simp only [List.mem_cons, List.not_mem_nil, or_false, forall_eq_or_imp, forall_eq]
  refine ⟨trivial, trivial, trivial, trivial, trivial, trivial, trivial, ?_, ?_, ?_, ?_⟩ <;>
    apply onePacket_perfect <;> norm_num [asMillisF64, durationSince]

/-- Two publishers on a perfect network whose constants lie a second apart: the packet of
the second one looks a second late, and its subscriber's target is cut. -/
theorem noPhantom_fails :
    let F := Features.full
    let ops : List Op := [.clientNew .new .throwaway, .clientNew .new .throwaway,
      .clientNew .new .throwaway, .insert ⟨0⟩ 0, .insert ⟨1⟩ 0, .insert ⟨2⟩ 0, .enableGoogcc ⟨2⟩,
      .pollAll 20000000 (onePacket ⟨0⟩ 1020), .pollAll 40000000 (onePacket ⟨0⟩ 1040),
      .pollAll 60000000 (onePacket ⟨0⟩ 1060), .pollAll 80000000 (onePacket ⟨1⟩ 80)]
    (∀ op ∈ ops, op.Perfect 0 fun id => if id = ⟨0⟩ then -1000 else 0) ∧
      ¬ Run.Along (step F) (fun p op => NoPhantom p (p.step F op))
        (start 0 : Process PeerDetector) ops := by
  intro F ops
  constructor
  · simp only [ops, List.mem_cons, List.not_mem_nil, or_false, forall_eq_or_imp, forall_eq]
    refine ⟨trivial, trivial, trivial, trivial, trivial, trivial, trivial, ?_, ?_, ?_, ?_⟩ <;>
      apply onePacket_perfect <;> norm_num [asMillisF64, durationSince]
  · intro halong
    have hlast := (Run.along_iff _ _ _).mp halong (ops.take 10) _ [] rfl
    have hover : ((run F (start 0 : Process PeerDetector) ops).googcc ⟨2⟩).any
        (fun g => g.trendline.overuse) = true := by decide +kernel
    obtain ⟨g, hg, hover⟩ := (Option.any_eq_true _ _).mp hover
    rw [(hlast ⟨2⟩ g hg).1] at hover
    cases hover

end Process
end SfuKit
