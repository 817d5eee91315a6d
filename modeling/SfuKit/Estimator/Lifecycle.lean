import SfuKit.Model.DriveFrame
import SfuKit.Model.PeerDetector

/-! # Estimator entries and connected peers

The estimator creates an entry for whatever id it is asked about, and a single
sweep removes the entries of the clients it reaps. An id that nobody connected
answers to keeps its entry for good.
-/
namespace SfuKit

open Library

/-- The id a queued event makes the estimator create an entry for. -/
def Propagated.hinted : Propagated → Option ClientId
  | .clientBudgetHint id _ => some id
  | _ => none

namespace Process
variable {D : Type*}

/-- Every entry of the estimator belongs to a connected client. -/
def EntriesConnected (p : Process D) : Prop :=
  ∀ id ∈ p.reg.bandwidth.keys, id ∈ p.reg.ids

instance (p : Process D) : Decidable p.EntriesConnected :=
  inferInstanceAs (Decidable (∀ id ∈ p.reg.bandwidth.keys, id ∈ p.reg.ids))

/-- The ids a call names to the estimator, budget hints it consumes included. -/
def named (F : Features) (p : Process D) : Op → List ClientId
  | .onTwccFeedback id _ _ | .recordSendTime id _ _ | .recordNativeEstimate id _ => [id]
  | .enableGoogcc id => if F.googccBwe then [id] else []
  | .fanoutPending _ => p.reg.toPropagate.filterMap Propagated.hinted
  | _ => []

variable [ActiveSpeakerDetector D]

/-- The ids named to the estimator since the last `reap_dead`, starting from `acc`. -/
def namedSinceReap (F : Features) : Process D → List ClientId → List Op → List ClientId
  | _, acc, [] => acc
  | p, acc, op :: ops =>
    namedSinceReap F (p.step F op)
      (match op with | .reapDead => [] | _ => acc ++ p.named F op) ops

end Process

namespace Registry
variable {D : Type*} (F : Features) (now : Instant)

theorem mem_keys_foldl_googcc (l : List Client) (b : BandwidthEstimator) (a s : ℚ)
    (id : ClientId) :
    id ∈ (l.foldl (fun b c => b.googccOnReceive c.id a s 0) b).keys ↔ id ∈ b.keys := by
  induction l generalizing b with
  | nil => exact Iff.rfl
  | cons c l ih => rw [List.foldl_cons, ih, BandwidthEstimator.mem_keys_googccOnReceive]

theorem mem_keys_foldl_reapDead (l : List Client) (b : BandwidthEstimator) (id : ClientId) :
    id ∈ (l.foldl (fun b c => b.reapDead c.id) b).keys ↔ id ∉ l.map (·.id) ∧ id ∈ b.keys := by
  induction l generalizing b with
  | nil => simp
  | cons c l ih =>
    rw [List.foldl_cons, ih, BandwidthEstimator.mem_keys_reapDead]
    simp only [List.map_cons, List.mem_cons, not_or]
    tauto

/-- The drain loop gives an entry to every hinted id, and to nobody else. -/
theorem mem_keys_fanoutPending (hF : F.kalmanBwe = true) (r : Registry D) (id : ClientId) :
    id ∈ (r.fanoutPending F now).bandwidth.keys ↔
      id ∈ r.bandwidth.keys ∨ id ∈ r.toPropagate.filterMap Propagated.hinted := by
  have hinv := fanoutPending_invariant F now (r := r)
    (P := fun s => id ∈ s.bandwidth.keys ∨ id ∈ s.toPropagate.filterMap Propagated.hinted ↔
      id ∈ r.bandwidth.keys ∨ id ∈ r.toPropagate.filterMap Propagated.hinted) ?_ Iff.rfl
  · rw [← hinv, fanoutPending_toPropagate]
    simp
  · intro s hs
    rw [← hs]
    unfold fanoutStep
    cases hq : s.toPropagate with
    | nil => rw [hq]
    | cons p rest =>
      dsimp only
      obtain ⟨evs, hevs, -, hmode⟩ := fanoutEvent_queue F now { s with toPropagate := rest } p
      have hnone : evs.filterMap Propagated.hinted = [] := by
        rw [List.filterMap_eq_nil_iff]
        intro e he
        have hm := hmode e he
        cases e <;> first | rfl | simp [Propagated.isMode] at hm
      rw [fanoutEvent_bandwidth, hevs, List.filterMap_append, hnone, List.append_nil]
      cases p with
      | clientBudgetHint peer bps =>
        simp only [hF, if_true, BandwidthEstimator.recordClientHint,
          BandwidthEstimator.mem_keys_modify, Propagated.hinted, List.filterMap_cons, List.mem_cons]
        tauto
      | _ => rfl

section Poll
variable [ActiveSpeakerDetector D]

theorem keys_pollAll (feed : Feed) (nextAlloc : WeakTrack) (r : Registry D) :
    (∀ id ∈ r.bandwidth.keys, id ∈ (r.pollAll F now feed nextAlloc).reg.bandwidth.keys) ∧
      ∀ id ∈ (r.pollAll F now feed nextAlloc).reg.bandwidth.keys,
        id ∈ r.bandwidth.keys ∨ id ∈ r.ids := by
  refine (pollAll_invariant F now feed (P := fun st => st.reg.ids = r.ids ∧
    (∀ id ∈ r.bandwidth.keys, id ∈ st.reg.bandwidth.keys) ∧
      ∀ id ∈ st.reg.bandwidth.keys, id ∈ r.bandwidth.keys ∨ id ∈ r.ids)
    ?_ ?_ ⟨rfl, fun _ h => h, fun _ h => .inl h⟩).2
  · rintro i st c x - - - ⟨hids, hkeep, hnew⟩
    refine ⟨(ids_of_badges (pollStep_badges F now i st x)).trans hids, ?_⟩
    rcases pollStep_bandwidth F now i st x with h | ⟨-, c, bps, hc, h⟩
    · rw [h]
      exact ⟨hkeep, hnew⟩
    · rw [h]
      simp only [BandwidthEstimator.recordNativeEstimate, BandwidthEstimator.mem_keys_modify]
      refine ⟨fun id hid => .inr (hkeep id hid), ?_⟩
      rintro id (rfl | hid)
      · right
        rw [← hids]
        exact List.mem_map_of_mem hc
      · exact hnew id hid
  · rintro st a s ⟨hids, hkeep, hnew⟩
    refine ⟨hids, fun id hid => ?_, fun id hid => ?_⟩
    · exact (mem_keys_foldl_googcc _ _ a s id).mpr (hkeep id hid)
    · exact hnew id ((mem_keys_foldl_googcc _ _ a s id).mp hid)

end Poll
end Registry

/-- What a call other than `reap_dead` does to the entries: it names `l` to the estimator,
and may create entries for connected clients besides. -/
structure Registry.EntriesGrow {D : Type*} (l : List ClientId) (r r' : Registry D) : Prop where
  connected : ∀ id ∈ r.ids, id ∈ r'.ids
  kept : ∀ id ∈ r.bandwidth.keys, id ∈ r'.bandwidth.keys
  created : ∀ id ∈ l, id ∈ r'.bandwidth.keys
  only : ∀ id ∈ r'.bandwidth.keys, id ∈ r.bandwidth.keys ∨ id ∈ l ∨ id ∈ r.ids

namespace Registry.EntriesGrow
variable {D : Type*} {r r' : Registry D}

theorem of_bandwidth_eq (hids : ∀ id ∈ r.ids, id ∈ r'.ids) (hb : r'.bandwidth = r.bandwidth) :
    EntriesGrow [] r r' where
  connected := hids
  kept id h := by rwa [hb]
  created id h := by cases h
  only id h := by rw [hb] at h; exact .inl h

theorem of_eq (hids : r'.ids = r.ids) (hb : r'.bandwidth = r.bandwidth) : EntriesGrow [] r r' :=
  of_bandwidth_eq (fun id h => by rwa [hids]) hb

theorem modify (r : Registry D) (id : ClientId) (f : PerSubscriber → PerSubscriber) :
    EntriesGrow [id] r { r with bandwidth := r.bandwidth.modify id f } where
  connected _ h := h
  kept i h := (BandwidthEstimator.mem_keys_modify ..).mpr (.inr h)
  created i h := (BandwidthEstimator.mem_keys_modify ..).mpr (.inl (List.mem_singleton.mp h))
  only i h := by
    rcases (BandwidthEstimator.mem_keys_modify ..).mp h with rfl | h
    · exact .inr (.inl (List.mem_singleton_self i))
    · exact .inl h

end Registry.EntriesGrow

namespace Process
variable {D : Type*}

variable [ActiveSpeakerDetector D] (F : Features)

open Registry in
/-- Every call but `reap_dead` grows the entries by what it names. -/
theorem entriesGrow_step (hF : F.kalmanBwe = true) (p : Process D) (op : Op)
    (hop : op ≠ .reapDead) : EntriesGrow (p.named F op) p.reg (p.step F op).reg := by
  have hnotice (hquiet : op.isNotice = true) :
      EntriesGrow (p.named F op) p.reg (p.step F op).reg := by
    obtain ⟨detector, metrics, notices, -, hstep⟩ := p.step_notice F hquiet
    have hnamed : p.named F op = [] := by
      cases op <;> first | rfl | cases hquiet
    rw [hstep, hnamed]
    exact .of_eq rfl rfl
  cases op with
  | reapDead => exact absurd rfl hop
  | clientNew rtc metrics =>
    simp only [step, clientNew]
    obtain ⟨m, h⟩ := metricsCalls_reg { p with
      held := p.held ++ [(Client.new ⟨p.idCounter⟩ rtc metrics).1]
      idCounter := p.idCounter + 1 } metrics (Client.new ⟨p.idCounter⟩ rtc metrics).2
    rw [h]
    exact .of_eq rfl rfl
  | heldPoll id clock result =>
    simp only [step, heldPoll]
    split
    · exact .of_eq rfl rfl
    · obtain ⟨m, h⟩ := metricsCalls_reg ..
      rw [h]
      exact .of_eq rfl rfl
  | setOrigin id origin => exact .of_eq (p.onClient_map id (fun _ => rfl)) rfl
  | setDesiredLayer id rid => exact .of_eq (p.onClient_map id (fun _ => rfl)) rfl
  | connection id alive writers => exact .of_eq (p.onClient_map id (fun _ => rfl)) rfl
  | dropHeld id =>
    simp only [step, dropHeld]
    split <;> exact .of_eq rfl rfl
  | insert id now =>
    simp only [step, insert]
    split
    · exact .of_eq rfl rfl
    · refine .of_bandwidth_eq (fun i hi => ?_) rfl
      simp only [Registry.insert, Registry.ids, List.map_append]
      exact List.mem_append_left _ hi
  | pollAll now feed =>
    obtain ⟨hkeep, hnew⟩ := keys_pollAll F now feed p.nextAlloc p.reg
    have hids := ids_of_badges (pollAll_badges F now feed p.nextAlloc p.reg)
    exact ⟨fun i hi => by rwa [step, pollAll, hids], hkeep, fun i hi => (List.not_mem_nil hi).elim,
      fun i hi => (hnew i hi).imp_right .inr⟩
  | fanoutPending now =>
    have hids := ids_of_badges (fanoutPending_badges F now p.reg)
    have hkeys := mem_keys_fanoutPending F now hF p.reg
    exact ⟨fun i hi => by rwa [step, hids], fun i hi => (hkeys i).mpr (.inl hi),
      fun i hi => (hkeys i).mpr (.inr hi), fun i hi => ((hkeys i).mp hi).imp_right .inl⟩
  | updatePacerLayers origin now =>
    simp only [step]
    split_ifs
    · exact .of_eq (ids_of_badges (updatePacerLayers_badges now p.reg origin)) rfl
    · exact .of_eq rfl rfl
  | onTwccFeedback id feedback now =>
    simp only [step, hF, if_true]
    exact .modify p.reg id _
  | recordSendTime id seq sentAt =>
    simp only [step, hF, if_true]
    exact .modify p.reg id _
  | recordNativeEstimate id bps =>
    simp only [step, hF, if_true]
    exact .modify p.reg id _
  | enableGoogcc id =>
    simp only [step, named]
    split_ifs
    · exact .modify p.reg id _
    · exact .of_eq rfl rfl
  | googccOnReceive id a s l =>
    simp only [step]
    split_ifs
    · have hkeys := fun i => BandwidthEstimator.mem_keys_googccOnReceive p.reg.bandwidth id i a s l
      exact ⟨fun _ h => h, fun i h => (hkeys i).mpr h, fun i h => (List.not_mem_nil h).elim,
        fun i h => .inl ((hkeys i).mp h)⟩
    · exact .of_eq rfl rfl
  | emitPublisherLayerHints | clientBudgetHint | recordAudioLevel | tickActiveSpeaker
    | tickSpeakerScores => exact hnotice rfl

/-- The entries are those of connected clients and of the ids in `acc`, all of which
have one. -/
structure EntriesTracked (p : Process D) (acc : List ClientId) : Prop where
  only : ∀ id ∈ p.reg.bandwidth.keys, id ∈ p.reg.ids ∨ id ∈ acc
  entry : ∀ id ∈ acc, id ∈ p.reg.bandwidth.keys

variable {F} {p : Process D} {acc : List ClientId}

theorem EntriesTracked.step (h : p.EntriesTracked acc) (hF : F.kalmanBwe = true) {op : Op}
    (hop : op ≠ .reapDead) : (p.step F op).EntriesTracked (acc ++ p.named F op) := by
  have hgrow := entriesGrow_step F hF p op hop
  constructor
  · intro id hid
    rw [List.mem_append]
    rcases hgrow.only id hid with hk | hn | hc
    · exact (h.only id hk).imp (hgrow.connected id) .inl
    · exact .inr (.inr hn)
    · exact .inl (hgrow.connected id hc)
  · intro id hid
    rcases List.mem_append.mp hid with ha | hn
    · exact hgrow.kept id (h.entry id ha)
    · exact hgrow.created id hn

/-- The sweep leaves no stray entry exactly if everybody named since the last one is
connected, dead or alive. -/
theorem EntriesTracked.reapDead_iff (h : p.EntriesTracked acc) (hF : F.kalmanBwe = true) :
    (p.step F .reapDead).EntriesConnected ↔ ∀ id ∈ acc, id ∈ p.reg.ids := by
  have hkeys : ∀ id, id ∈ (p.step F .reapDead).reg.bandwidth.keys ↔
      id ∉ (p.reg.clients.filter fun c => !c.isAlive).map (·.id) ∧ id ∈ p.reg.bandwidth.keys := by
    intro id
    simp only [Process.step, Registry.reapDead, hF, if_true]
    exact Registry.mem_keys_foldl_reapDead _ _ id
  have hids : ∀ id, id ∈ (p.step F .reapDead).reg.ids ↔
      ∃ c ∈ p.reg.clients, c.isAlive = true ∧ c.id = id := by
    intro id
    simp [Process.step, Registry.reapDead, Registry.ids, and_assoc]
  constructor
  · intro hconn id hacc
    by_contra hno
    have hlive : id ∉ (p.reg.clients.filter fun c => !c.isAlive).map (·.id) := by
      intro hdead
      obtain ⟨c, hc, rfl⟩ := List.mem_map.mp hdead
      exact hno (List.mem_map_of_mem (List.mem_of_mem_filter hc))
    obtain ⟨c, hc, -, rfl⟩ := (hids id).mp (hconn id ((hkeys id).mpr ⟨hlive, h.entry id hacc⟩))
    exact hno (List.mem_map_of_mem hc)
  · intro hacc id hid
    obtain ⟨hlive, hk⟩ := (hkeys id).mp hid
    obtain ⟨c, hc, rfl⟩ := List.mem_map.mp ((h.only id hk).elim (fun hc => hc) (hacc id))
    refine (hids c.id).mpr ⟨c, hc, ?_, rfl⟩
    by_contra hdead
    exact hlive (List.mem_map.mpr ⟨c, List.mem_filter.mpr ⟨hc, by simpa using hdead⟩, rfl⟩)

theorem entriesConnected_iff_of_tracked (hF : F.kalmanBwe = true) (ops : List Op)
    (p : Process D) (acc : List ClientId) (h : p.EntriesTracked acc) :
    (∀ pre, pre ++ [.reapDead] <+: ops → (run F p (pre ++ [.reapDead])).EntriesConnected) ↔
      ∀ pre, pre ++ [.reapDead] <+: ops →
        ∀ id ∈ namedSinceReap F p acc pre, id ∈ (run F p pre).reg.ids := by
  induction ops generalizing p acc with
  | nil => simp
  | cons op ops ih =>
    rw [Run.forall_concat_prefix_cons, Run.forall_concat_prefix_cons]
    by_cases hop : op = .reapDead
    · subst hop
      have hhere := h.reapDead_iff hF
      simp only [forall_const]
      constructor
      · rintro ⟨h0, hrest⟩
        refine ⟨hhere.mp h0, (ih _ [] ⟨fun id hid => .inl (h0 id hid), ?_⟩).mp hrest⟩
        intro id hid
        cases hid
      · rintro ⟨h0, hrest⟩
        have hconn := hhere.mpr h0
        refine ⟨hconn, (ih _ [] ⟨fun id hid => .inl (hconn id hid), ?_⟩).mpr hrest⟩
        intro id hid
        cases hid
    · have hnamed : ∀ pre, namedSinceReap F p acc (op :: pre) =
          namedSinceReap F (p.step F op) (acc ++ p.named F op) pre := by
        intro pre
        cases op <;> first | rfl | exact absurd rfl hop
      simp only [hop, false_imp_iff, true_and, hnamed]
      exact ih _ _ (h.step hF hop)

/-- Over any calls, the sweeps all leave entries of connected clients only, exactly when at
each sweep everybody named to the estimator since the one before is connected. -/
theorem entriesConnected_iff (now : Instant) (hF : F.kalmanBwe = true) (ops : List Op) :
    (∀ pre, pre ++ [.reapDead] <+: ops →
      (run F (start now : Process D) (pre ++ [.reapDead])).EntriesConnected) ↔
    ∀ pre, pre ++ [.reapDead] <+: ops →
      ∀ id ∈ namedSinceReap F (start now : Process D) [] pre,
        id ∈ (run F (start now : Process D) pre).reg.ids := by
  refine entriesConnected_iff_of_tracked hF ops _ [] ⟨fun id hid => ?_, fun id hid => ?_⟩
  · cases hid
  · cases hid

/-- Feedback for a connected client, who then disconnects: the sweep takes the entry along. -/
theorem entriesConnected_iff_feed_disconnect_reap :
    (run .full (start 0 : Process PeerDetector)
      [.clientNew .new .throwaway, .insert ⟨0⟩ 0, .onTwccFeedback ⟨0⟩ ⟨[]⟩ 0,
        .connection ⟨0⟩ false [], .reapDead]).EntriesConnected := by
  have h := entriesConnected_iff (D := PeerDetector) (F := .full) 0 rfl
    [.clientNew .new .throwaway, .insert ⟨0⟩ 0, .onTwccFeedback ⟨0⟩ ⟨[]⟩ 0,
      .connection ⟨0⟩ false [], .reapDead]
  refine h.mpr ?_ [.clientNew .new .throwaway, .insert ⟨0⟩ 0, .onTwccFeedback ⟨0⟩ ⟨[]⟩ 0,
    .connection ⟨0⟩ false []] List.prefix_rfl
  iterate 5 rw [Run.forall_concat_prefix_cons]
  simp only [reduceCtorEq, false_imp_iff, true_and, forall_const]
  refine ⟨by decide, fun pre hpre => ?_⟩
  simp at hpre

/-- Feedback that arrives after its subscriber was reaped: the next sweep leaves the entry. -/
theorem entriesConnected_fails :
    ¬ (run .full (start 0 : Process PeerDetector)
      [.clientNew .new .throwaway, .insert ⟨0⟩ 0, .connection ⟨0⟩ false [], .reapDead,
        .onTwccFeedback ⟨0⟩ ⟨[]⟩ 0, .reapDead]).EntriesConnected := by
  decide

end Process
end SfuKit
