import SfuKit.Model.DriveFrame

/-! # What a call does to a client

A client keeps its identity and its origin, its own tracks and its entries for the tracks of
others. New tracks carry its id and its relay status, new entries are yet to be opened. Only
`set_origin` does anything else, and only `Client::new` makes a client that was not there.
-/
namespace SfuKit

/-- The client `c'` is what calls have made of `c`. -/
structure Client.Evolves (c c' : Client) : Prop where
  id : c'.id = c.id
  origin : c'.origin = c.origin
  arcs : ∃ opened, c'.arcs = c.arcs ++ opened ∧
    ∀ a ∈ opened, a.track.origin = c.id ∧ a.track.relaySource = c.isRelay
  entries : ∃ known, c'.tracksOut = c.tracksOut ++ known ∧ ∀ o ∈ known, o.state = .toOpen

namespace Client.Evolves

theorem of_eq {c c' : Client} (hid : c'.id = c.id) (horigin : c'.origin = c.origin)
    (harcs : c'.arcs = c.arcs) (hout : c'.tracksOut = c.tracksOut) : c.Evolves c' where
  id := hid
  origin := horigin
  arcs := ⟨[], by rw [harcs, List.append_nil], by simp⟩
  entries := ⟨[], by rw [hout, List.append_nil], by simp⟩

theorem refl (c : Client) : c.Evolves c := of_eq rfl rfl rfl rfl

theorem isRelay {c c' : Client} (h : c.Evolves c') : c'.isRelay = c.isRelay := by
  simp only [Client.isRelay, h.origin]

theorem trans {c c' c'' : Client} (h : c.Evolves c') (h' : c'.Evolves c'') : c.Evolves c'' where
  id := h'.id.trans h.id
  origin := h'.origin.trans h.origin
  arcs := by
    obtain ⟨opened, he, hopened⟩ := h.arcs
    obtain ⟨opened', he', hopened'⟩ := h'.arcs
    rw [h.id, h.isRelay] at hopened'
    refine ⟨opened ++ opened', by rw [he', he, List.append_assoc], ?_⟩
    exact List.forall_mem_append.mpr ⟨hopened, hopened'⟩
  entries := by
    obtain ⟨known, he, hknown⟩ := h.entries
    obtain ⟨known', he', hknown'⟩ := h'.entries
    refine ⟨known ++ known', by rw [he', he, List.append_assoc], ?_⟩
    exact List.forall_mem_append.mpr ⟨hknown, hknown'⟩

end Client.Evolves

section Client
variable (c : Client) (now : Instant)

theorem handleTrackOpen_evolves (w : WeakTrack) : c.Evolves (c.handleTrackOpen w) where
  id := rfl
  origin := rfl
  arcs := ⟨[], (List.append_nil _).symm, by simp⟩
  entries := ⟨[⟨w, .toOpen⟩], rfl, by simp⟩

theorem handleMediaDataOut_evolves (heap : List ArcTrack) (origin : ClientId)
    (data : SfuMediaPayload) : c.Evolves (c.handleMediaDataOut heap origin data).1 := by
  obtain ⟨_, _, _, h⟩ := c.handleMediaDataOut_eq heap origin data
  rw [h]
  exact .of_eq rfl rfl rfl rfl

theorem handleKeyframeRequest_evolves (req : SfuKeyframeRequest) (mid : SfuMid) :
    c.Evolves (c.handleKeyframeRequest now req mid) := by
  unfold Client.handleKeyframeRequest
  repeat' split
  all_goals exact .of_eq rfl rfl rfl rfl

theorem pollOutput_evolves (heap : List ArcTrack) (addr : WeakTrack) (x : PollResult) :
    c.Evolves (c.pollOutput heap addr now x).1 := by
  obtain ⟨_, _, _, _, h⟩ := c.pollOutput_eq heap addr now x
  have hid : (c.pollOutput heap addr now x).1.id = c.id := by rw [h]
  have horigin : (c.pollOutput heap addr now x).1.origin = c.origin := by rw [h]
  have hout : (c.pollOutput heap addr now x).1.tracksOut = c.tracksOut := by rw [h]
  rcases c.pollOutput_arcs heap addr now x with ⟨mid, kind, -, harcs, -⟩ | ⟨harcs, -⟩
  · refine ⟨hid, horigin, ⟨_, harcs, by simp⟩, ⟨[], ?_, by simp⟩⟩
    rw [hout, List.append_nil]
  · exact .of_eq hid horigin harcs hout

theorem driveReading_evolves (bps : ℕ) (signals : Option PerSubscriber) :
    c.Evolves (driveReading c now bps signals).client := by
  obtain ⟨_, _, h⟩ := driveReading_client c now bps signals
  rw [h]
  exact .of_eq rfl rfl rfl rfl

theorem driveSubscriber_evolves (b : BandwidthEstimator) (origin : ClientId) :
    c.Evolves (driveSubscriber b origin now c).client := by
  rcases driveSubscriber_cases c now b origin with ⟨h, -, -⟩ | ⟨sub, -, -, -, h, -, -⟩
  · rw [h]
    exact .refl c
  · rw [h]
    refine .trans ?_ (driveReading_evolves ..)
    exact .of_eq rfl rfl rfl rfl

theorem fanoutClient_evolves (heap : List ArcTrack) (p : Propagated) :
    c.Evolves (fanoutClient heap now p c).1 := by
  cases p with
  | trackOpen origin w =>
    simp only [fanoutClient]
    split_ifs
    · exact .refl c
    · exact handleTrackOpen_evolves c w
  | mediaData origin data =>
    simp only [fanoutClient]
    split_ifs
    · exact .refl c
    · exact handleMediaDataOut_evolves c heap origin data
  | keyframeRequest origin req source mid =>
    simp only [fanoutClient]
    split_ifs
    · exact handleKeyframeRequest_evolves c now req mid
    · exact .refl c
  | activeSpeakerChanged peer conf =>
    simp only [fanoutClient]
    split_ifs
    · exact .refl c
    · exact .of_eq rfl rfl rfl rfl
  | _ => exact .refl c

end Client

/-- Every client of `l'` is one of `l`, evolved. -/
def Descends (l l' : List Client) : Prop := ∀ c' ∈ l', ∃ c ∈ l, c.Evolves c'

namespace Descends

theorem of_subset {l l' : List Client} (h : l' ⊆ l) : Descends l l' :=
  fun c hc => ⟨c, h hc, .refl c⟩

theorem refl (l : List Client) : Descends l l := of_subset (List.Subset.refl l)

theorem trans {l l' l'' : List Client} (h : Descends l l') (h' : Descends l' l'') :
    Descends l l'' := by
  intro c'' hc''
  obtain ⟨c', hc', he'⟩ := h' c'' hc''
  obtain ⟨c, hc, he⟩ := h c' hc'
  exact ⟨c, hc, he.trans he'⟩

theorem map {f : Client → Client} (hf : ∀ c : Client, c.Evolves (f c)) (l : List Client) :
    Descends l (l.map f) := by
  intro c' hc'
  obtain ⟨c, hc, rfl⟩ := List.mem_map.mp hc'
  exact ⟨c, hc, hf c⟩

theorem set {l : List Client} {i : ℕ} {c c' : Client} (hc : l[i]? = some c)
    (h : c.Evolves c') : Descends l (l.set i c') := by
  intro d hd
  rcases List.mem_or_eq_of_mem_set hd with hd | rfl
  · exact ⟨d, hd, .refl d⟩
  · exact ⟨c, List.mem_of_getElem? hc, h⟩

end Descends

namespace Registry
variable {D : Type*} (F : Features) (now : Instant)

theorem updatePacerLayers_descends (r : Registry D) (origin : ClientId) :
    Descends r.clients (r.updatePacerLayers origin now).clients := by
  simp only [updatePacerLayers, List.map_map]
  exact .map (fun c => driveSubscriber_evolves c now r.bandwidth origin) _

theorem fanout_descends (r : Registry D) (p : Propagated) :
    Descends r.clients (r.fanout now p).clients :=
  .map (fun c => fanoutClient_evolves c now r.heap p) _

theorem fanoutStep_descends (r : Registry D) :
    Descends r.clients (r.fanoutStep F now).clients := by
  unfold fanoutStep
  split
  · exact .refl _
  · rename_i p rest _
    generalize hr : ({ r with toPropagate := rest } : Registry D) = r'
    have hclients : r'.clients = r.clients := by rw [← hr]
    rw [← hclients]
    cases p with
    | mediaData origin data =>
      simp only [fanoutEvent]
      split_ifs
      · exact (updatePacerLayers_descends now r' origin).trans (fanout_descends now _ _)
      · exact fanout_descends now r' _
    | clientBudgetHint peer bps =>
      simp only [fanoutEvent]
      split_ifs
      · exact .refl _
      · exact fanout_descends now r' _
    | _ => exact fanout_descends now r' _

theorem fanoutPending_descends (r : Registry D) :
    Descends r.clients (r.fanoutPending F now).clients :=
  fanoutPending_invariant F now (P := fun s => Descends r.clients s.clients)
    (fun s hs => hs.trans (fanoutStep_descends F now s)) (.refl _)

section Detector
variable [ActiveSpeakerDetector D]

theorem insert_descends (r : Registry D) (c : Client) :
    ∃ c', (r.insert F now c).clients = r.clients ++ [c'] ∧ c.Evolves c' := by
  refine ⟨_, insert_clients F now r c, rfl, rfl, ⟨[], (List.append_nil _).symm, by simp⟩, ?_⟩
  exact ⟨r.heap.map fun a => ⟨a.addr, .toOpen⟩, rfl, by simp⟩

theorem pollStep_descends (i : ℕ) (st : PollState D) (x : Instant × PollResult) :
    Descends st.reg.clients (pollStep F now i st x).1.reg.clients := by
  unfold pollStep
  cases hc : st.reg.clients[i]? with
  | none => exact .refl _
  | some c =>
    dsimp only
    split_ifs with ha
    · have hpolled := pollOutput_evolves c x.1 st.reg.heap st.nextAlloc x.2
      generalize c.pollOutput st.reg.heap st.nextAlloc x.1 x.2 = q at hpolled ⊢
      rcases handlePolled_clients F now x.1 i q.1
        { st with reg := { st.reg with clients := st.reg.clients.set i q.1
                                       metrics := st.reg.metrics.calls q.2.2 }
                  nextAlloc := st.nextAlloc + 1 } q.2.1 with h | ⟨-, bps, h⟩
      · rw [h]
        exact .set hc hpolled
      · rw [h, List.set_set]
        exact .set hc (hpolled.trans (driveReading_evolves q.1 x.1 bps none))
    · exact .refl _

theorem pollAll_descends (feed : Feed) (nextAlloc : WeakTrack) (r : Registry D) :
    Descends r.clients (r.pollAll F now feed nextAlloc).reg.clients :=
  pollAll_invariant F now feed (P := fun st => Descends r.clients st.reg.clients)
    (fun i st _ x _ _ _ hst => hst.trans (pollStep_descends F now i st x))
    (fun _ _ _ hst => hst) (.refl _)

theorem reapDead_descends (r : Registry D) : Descends r.clients (r.reapDead F).clients :=
  .of_subset (List.filter_subset_self _)

end Detector
end Registry

namespace Process
variable {D : Type*} (p : Process D)

theorem onClient_descends (id : ClientId) {f : Client → Client}
    (hf : ∀ c : Client, c.Evolves (f c)) :
    Descends p.reg.clients (p.onClient id f).reg.clients ∧
      Descends p.held (p.onClient id f).held := by
  have hupdate : ∀ c : Client, c.Evolves (if c.id = id then f c else c) := by
    intro c
    split_ifs
    · exact hf c
    · exact .refl c
  exact ⟨.map hupdate _, .map hupdate _⟩

@[simp] theorem metricsCalls_clients (handle : MetricsHandle) (calls : List MetricCall) :
    (p.metricsCalls handle calls).reg.clients = p.reg.clients ∧
      (p.metricsCalls handle calls).held = p.held ∧
      (p.metricsCalls handle calls).idCounter = p.idCounter := by
  cases handle <;> exact ⟨rfl, rfl, rfl⟩

variable [ActiveSpeakerDetector D] (F : Features)

/-- Ids are not drawn twice. -/
theorem idCounter_le_step (op : Op) : p.idCounter ≤ (p.step F op).idCounter := by
  cases op with
  | clientNew rtc metrics => simp [step, clientNew]
  | heldPoll id clock result =>
    simp only [step, heldPoll]
    split
    · exact le_rfl
    · simp
  | dropHeld id =>
    simp only [step, dropHeld]
    split <;> exact le_rfl
  | insert id now =>
    simp only [step, insert]
    split <;> exact le_rfl
  | updatePacerLayers | onTwccFeedback | recordSendTime | recordNativeEstimate | enableGoogcc |
      googccOnReceive | recordAudioLevel | tickActiveSpeaker | tickSpeakerScores =>
    simp only [step]
    split_ifs <;> exact le_rfl
  | _ => exact le_rfl

/-- What a call does to the clients of the room and to those the application holds. -/
theorem step_clients (op : Op) :
    (∃ id origin, op = .setOrigin id origin) ∨
    (∃ rtc metrics, op = .clientNew rtc metrics ∧ (p.step F op).reg.clients = p.reg.clients ∧
      (p.step F op).held = p.held ++ [(Client.new ⟨p.idCounter⟩ rtc metrics).1]) ∨
    (∃ id now j c c', op = .insert id now ∧ p.heldAt id = some (j, c) ∧ c.Evolves c' ∧
      (p.step F op).reg.clients = p.reg.clients ++ [c'] ∧
      (p.step F op).held = p.held.eraseIdx j) ∨
    ((∀ id ∈ op.inserted, p.heldAt id = none) ∧
      Descends p.reg.clients (p.step F op).reg.clients ∧ Descends p.held (p.step F op).held) := by
  have hkept : op.inserted = none → Descends p.reg.clients (p.step F op).reg.clients →
      Descends p.held (p.step F op).held → (∀ id ∈ op.inserted, p.heldAt id = none) ∧
        Descends p.reg.clients (p.step F op).reg.clients ∧
        Descends p.held (p.step F op).held := by
    intro hop hreg hheld
    exact ⟨fun id hid => by simp [hop] at hid, hreg, hheld⟩
  have hnotice (hquiet : op.isNotice = true) (hop : op.inserted = none) :
      (∀ id ∈ op.inserted, p.heldAt id = none) ∧
        Descends p.reg.clients (p.step F op).reg.clients ∧
        Descends p.held (p.step F op).held := by
    obtain ⟨detector, metrics, notices, -, hstep⟩ := p.step_notice F hquiet
    apply hkept hop <;> rw [hstep] <;> exact .refl _
  cases op with
  | setOrigin id origin => exact .inl ⟨id, origin, rfl⟩
  | clientNew rtc metrics =>
    right; left
    refine ⟨rtc, metrics, rfl, ?_⟩
    simp [step, clientNew]
  | insert id now =>
    right; right
    cases hx : p.heldAt id with
    | none =>
      right
      have hs : p.step F (.insert id now) = p := by simp only [step, insert, hx]
      rw [hs]
      refine ⟨fun i hi => ?_, .refl _, .refl _⟩
      obtain rfl := Option.some.inj hi
      exact hx
    | some x =>
      obtain ⟨j, c⟩ := x
      obtain ⟨c', hc', he⟩ := p.reg.insert_descends F now c
      left
      refine ⟨id, now, j, c, c', rfl, hx, he, ?_, ?_⟩
      · simpa only [step, insert, hx] using hc'
      · simp only [step, insert, hx]
  | heldPoll id clock result =>
    right; right; right
    cases hx : p.heldAt id with
    | none =>
      apply hkept rfl <;> simp only [step, heldPoll, hx, Descends.refl]
    | some x =>
      obtain ⟨j, c⟩ := x
      apply hkept rfl <;> simp only [step, heldPoll, hx, metricsCalls_clients]
      · exact .refl _
      · exact .set (heldAt_eq_some hx).1 (pollOutput_evolves c ..)
  | dropHeld id =>
    right; right; right
    cases hx : p.heldAt id with
    | none =>
      apply hkept rfl <;> simp only [step, dropHeld, hx, Descends.refl]
    | some x =>
      apply hkept rfl <;> simp only [step, dropHeld, hx]
      · exact .refl _
      · exact .of_subset (List.eraseIdx_subset ..)
  | setDesiredLayer id rid =>
    right; right; right
    have hf : ∀ c : Client, c.Evolves (c.setDesiredLayer rid) := fun c => .of_eq rfl rfl rfl rfl
    obtain ⟨hreg, hheld⟩ := p.onClient_descends id hf
    exact hkept rfl hreg hheld
  | connection id alive writers =>
    right; right; right
    have hf : ∀ c : Client, c.Evolves (c.connection alive writers) :=
      fun c => .of_eq rfl rfl rfl rfl
    obtain ⟨hreg, hheld⟩ := p.onClient_descends id hf
    exact hkept rfl hreg hheld
  | pollAll now feed =>
    right; right; right
    exact hkept rfl (p.reg.pollAll_descends F now feed p.nextAlloc) (.refl _)
  | fanoutPending now =>
    right; right; right
    exact hkept rfl (p.reg.fanoutPending_descends F now) (.refl _)
  | updatePacerLayers origin now =>
    right; right; right
    apply hkept rfl <;> simp only [step] <;> split_ifs
    · exact p.reg.updatePacerLayers_descends now origin
    all_goals exact .refl _
  | reapDead =>
    right; right; right
    exact hkept rfl (p.reg.reapDead_descends F) (.refl _)
  | emitPublisherLayerHints | clientBudgetHint | recordAudioLevel | tickActiveSpeaker
    | tickSpeakerScores => exact .inr (.inr (.inr (hnotice rfl rfl)))
  | _ =>
    right; right; right
    apply hkept rfl <;> simp only [step] <;> split_ifs <;> exact .refl _

/-- Any client after a call was there before, or has had its origin set, or is new. -/
theorem mem_clients_step {op : Op} {c' : Client} (hc' : c' ∈ (p.step F op).clients) :
    (∃ c ∈ p.clients, c.Evolves c' ∧ ∀ origin, op ≠ .setOrigin c.id origin) ∨
    (∃ c ∈ p.clients, ∃ origin, op = .setOrigin c.id origin ∧ c' = c.setOrigin origin) ∨
    ∃ rtc metrics, op = .clientNew rtc metrics ∧ c' = (Client.new ⟨p.idCounter⟩ rtc metrics).1 := by
  by_cases hop : ∃ id origin, op = .setOrigin id origin
  · obtain ⟨id, origin, rfl⟩ := hop
    have hclients : (p.step F (.setOrigin id origin)).clients =
        updateClient id (fun c => c.setOrigin origin) p.clients := List.map_append.symm
    rw [hclients] at hc'
    obtain ⟨c, hc, rfl⟩ := List.mem_map.mp hc'
    split_ifs with hid
    · exact .inr (.inl ⟨c, hc, origin, by rw [hid], rfl⟩)
    · refine .inl ⟨c, hc, .refl c, fun _ he => hid ?_⟩
      injection he with hid'
      exact hid'.symm
  · have hset : ∀ (c : Client) origin, op ≠ .setOrigin c.id origin :=
      fun c origin he => hop ⟨c.id, origin, he⟩
    have hreg : ∀ c ∈ p.reg.clients, c ∈ p.clients := fun c hc => List.mem_append_left _ hc
    have hheld : ∀ c ∈ p.held, c ∈ p.clients := fun c hc => List.mem_append_right _ hc
    rcases p.step_clients F op with h | ⟨rtc, metrics, rfl, hr, hh⟩ |
      ⟨id, now, j, c, d, rfl, hx, he, hr, hh⟩ | ⟨-, hr, hh⟩
    · exact absurd h hop
    · rw [clients, hr, hh, ← List.append_assoc] at hc'
      rcases List.mem_append.mp hc' with hc' | hc'
      · exact .inl ⟨c', hc', .refl c', hset c'⟩
      · exact .inr (.inr ⟨rtc, metrics, rfl, List.mem_singleton.mp hc'⟩)
    · left
      rw [clients, hr, hh, List.append_assoc, List.mem_append] at hc'
      rcases hc' with hc' | hc'
      · exact ⟨c', hreg c' hc', .refl c', hset c'⟩
      · rcases List.mem_cons.mp hc' with rfl | hc'
        · exact ⟨c, hheld c (List.mem_of_getElem? (heldAt_eq_some hx).1), he, hset c⟩
        · exact ⟨c', hheld c' (List.eraseIdx_subset hc'), .refl c', hset c'⟩
    · left
      rcases List.mem_append.mp hc' with hc' | hc'
      · obtain ⟨c, hc, he⟩ := hr c' hc'
        exact ⟨c, hreg c hc, he, hset c⟩
      · obtain ⟨c, hc, he⟩ := hh c' hc'
        exact ⟨c, hheld c hc, he, hset c⟩

end Process
end SfuKit
