import SfuKit.Forwarding.ExactlyOnce
import SfuKit.Forwarding.KeyframeLayer
import SfuKit.Library.Ledger
import SfuKit.Metrics.Churn
import SfuKit.Pacer.Advances
import SfuKit.Tracks.CrossAdvertisement
import SfuKit.Tracks.Evolution

/-! # What a client counts and writes

The counter of delivered media and the writes on the connection are an account of the client,
and the deliveries of the history are its entries. The books are kept over every run, whatever
entries negotiation opens on the way: a client has counted the deliveries to it that passed its
filters, and has written what those among them give that find an open entry and a writer.
-/
namespace SfuKit

open Library Ledger

/-- What a client has counted as delivered, and written, latest first. -/
abbrev Account := ℕ × List WriteCall

namespace Client

def account (c : Client) : Account := (c.deliveredMedia, c.rtc.written)

/-- The account under its number. -/
def entry (c : Client) : ℕ × Account := (c.id.raw, c.account)

variable (c : Client) (heap : List ArcTrack) (origin : ClientId) (data : SfuMediaPayload)

/-- The call that the writer stage makes for a packet. -/
def outbound : Option WriteCall :=
  ((c.tracksOut.find? (matchesTrack heap origin data.mid)).bind TrackOut.mid).bind fun mid =>
    ((c.rtc.writer mid).bind fun w => (w.matchParams data.params).map (w, ·)).bind fun x =>
      if x.1.writable then
        some ⟨mid, x.2, data.networkTime, data.time, data.data, data.keyEpoch⟩
      else none

def writeCall : Option WriteCall :=
  if c.passesFilters heap origin data then c.outbound heap origin data else none

theorem writeOut_written : (c.writeOut heap origin data).rtc.written =
    (c.outbound heap origin data).toList ++ c.rtc.written := by
  unfold writeOut outbound
  cases (c.tracksOut.find? (matchesTrack heap origin data.mid)).bind TrackOut.mid with
  | none => rfl
  | some mid =>
    -- Remembering the layer leaves the connection alone, so both ways find the same writer.
    by_cases hlayer : data.rid.isSome ∧ c.chosenRid ≠ data.rid
    · simp only [if_pos hlayer, Option.bind_some]
      cases (c.rtc.writer mid).bind fun w => (w.matchParams data.params).map (w, ·) with
      | none => rfl
      | some x => cases hw : x.1.writable <;> simp [hw, Rtc.disconnect]
    · simp only [if_neg hlayer, Option.bind_some]
      cases (c.rtc.writer mid).bind fun w => (w.matchParams data.params).map (w, ·) with
      | none => rfl
      | some x => cases hw : x.1.writable <;> simp [hw, Rtc.disconnect]

theorem handleMediaDataOut_account : (c.handleMediaDataOut heap origin data).1.account =
    (c.deliveredMedia + if c.passesFilters heap origin data then 1 else 0,
      (c.writeCall heap origin data).toList ++ c.rtc.written) := by
  apply Prod.ext
  · exact c.handleMediaDataOut_deliveredMedia heap origin data
  · unfold handleMediaDataOut writeCall passesFilters account
    cases c.suspended && c.isVideoTrack heap origin data.mid with
    | true => rfl
    | false =>
      cases c.layerAccepts data with
      | false => rfl
      | true =>
        cases c.temporalAccepts data with
        | false => rfl
        | true => exact writeOut_written (c.countForwarded heap origin data).1 heap origin data

theorem pollOutput_entry (addr : WeakTrack) (now : Instant) (x : PollResult) :
    (c.pollOutput heap addr now x).1.entry = c.entry := by
  unfold pollOutput
  split
  · rcases x with - | - | t | e
    · rfl
    · rfl
    · rfl
    · cases e with
      | mediaData d =>
        obtain ⟨_, _, _, h, -⟩ := c.trackInMedia_eq now d
        simp only [handleEvent, h]
        rfl
      | _ => rfl
  · rfl

end Client

/-- The client that an entry of the history is about. -/
def Obs.receiver : Obs → Option ClientId
  | .delivery before .. => some before.id
  | .advance .. | .sample .. => none

def Obs.enter (b : Account) : Obs → Account
  | .delivery before _ heap origin data =>
    (b.1 + if before.passesFilters heap origin data then 1 else 0,
      (before.writeCall heap origin data).toList ++ b.2)
  | .advance .. | .sample .. => b

/-- The history as the log of the clients' accounts. -/
def book : Book Obs Account where
  owner o := o.receiver.map ClientId.raw
  enter := Obs.enter

def passed (id : ClientId) (h : List Obs) : ℕ :=
  h.countP fun
    | .delivery before _ heap origin data =>
      decide (before.id = id) && before.passesFilters heap origin data
    | _ => false

def writes (id : ClientId) (h : List Obs) : List WriteCall :=
  h.flatMap fun
    | .delivery before _ heap origin data =>
      if before.id = id then (before.writeCall heap origin data).toList else []
    | _ => []

@[simp] theorem book_owner (o : Obs) : book.owner o = o.receiver.map ClientId.raw := rfl

theorem book_owner_eq_some {o : Obs} {id : ClientId} :
    book.owner o = some id.raw ↔ o.receiver = some id := by
  rw [book_owner, Option.map_eq_some_iff]
  constructor
  · rintro ⟨id', h, hraw⟩
    rw [h, ClientId.ext hraw]
  · intro h
    exact ⟨id, h, rfl⟩

theorem post_book (id : ClientId) (h : List Obs) (b : Account) :
    book.post id.raw h b = (b.1 + passed id h, (writes id h).reverse ++ b.2) := by
  induction h generalizing b with
  | nil => rfl
  | cons o h ih =>
    rw [Book.post_cons, ih]
    cases o with
    | delivery before after heap origin data =>
      by_cases hid : before.id = id
      · have howner : book.owner (.delivery before after heap origin data) = some id.raw :=
          book_owner_eq_some.mpr (congrArg some hid)
        rw [if_pos howner]
        apply Prod.ext
        · simp only [book, Obs.enter, passed, List.countP_cons, hid, decide_true, Bool.true_and]
          omega
        · cases hw : before.writeCall heap origin data <;> simp [book, Obs.enter, writes, hid, hw]
      · have howner : book.owner (.delivery before after heap origin data) ≠ some id.raw :=
          fun h => hid (Option.some.inj (book_owner_eq_some.mp h))
        rw [if_neg howner]
        simp [passed, writes, hid]
    | advance | sample =>
      rw [if_neg (by simp [book, Obs.receiver])]
      simp [passed, writes]

/-- Entries for the deliveries of an event are about clients that it reaches. -/
theorem deliveries_receiver (heap : List ArcTrack) (l : List Client) (p : Propagated) :
    ∀ o ∈ deliveries heap l p, ∃ c ∈ l, o.receiver = some c.id := by
  intro o ho
  cases p with
  | mediaData origin data =>
    obtain ⟨c, hc, rfl⟩ := List.mem_map.mp ho
    exact ⟨c, List.mem_of_mem_filter hc, rfl⟩
  | _ => cases ho

theorem post_deliveries_of_not_mem (heap : List ArcTrack) {l : List Client} {id : ClientId}
    (h : ∀ c ∈ l, c.id ≠ id) (p : Propagated) (b : Account) :
    book.post id.raw (deliveries heap l p) b = b := by
  apply Book.post_of_silent
  intro o ho howner
  obtain ⟨c, hc, hreceiver⟩ := deliveries_receiver heap l p o ho
  rw [book_owner_eq_some, hreceiver] at howner
  exact h c hc (Option.some.inj howner)

/-- Of the deliveries of an event, one client's own is entered in its account. -/
theorem post_deliveries (heap : List ArcTrack) (p : Propagated) {l : List Client}
    (hl : (l.map (·.id)).Nodup) {c : Client} (hc : c ∈ l) (b : Account) :
    book.post c.id.raw (deliveries heap l p) b =
      book.post c.id.raw (deliveries heap [c] p) b := by
  induction l generalizing b with
  | nil => cases hc
  | cons d l ih =>
    obtain ⟨hd, hrest⟩ := List.nodup_cons.mp hl
    have hsplit : deliveries heap (d :: l) p = deliveries heap [d] p ++ deliveries heap l p := by
      rw [deliveries_eq, List.flatMap_cons, ← deliveries_eq]
    rw [hsplit, Book.post_append]
    rcases List.mem_cons.mp hc with rfl | hc
    · apply post_deliveries_of_not_mem
      intro e he hid
      exact hd (List.mem_map.mpr ⟨e, he, hid⟩)
    · have hother : ∀ e ∈ [d], e.id ≠ c.id := by
        intro e he hid
        rw [List.mem_singleton.mp he] at hid
        exact hd (List.mem_map.mpr ⟨c, hc, hid.symm⟩)
      rw [post_deliveries_of_not_mem heap hother, ih hrest hc]

/-- The fanout of an event to a client is its delivery there, if there is one. -/
theorem fanoutClient_account (heap : List ArcTrack) (now : Instant) (p : Propagated)
    (c : Client) : (fanoutClient heap now p c).1.account =
      book.post c.id.raw (deliveries heap [c] p) c.account := by
  cases p with
  | mediaData origin data =>
    simp only [fanoutClient, deliveries]
    by_cases ho : c.id = origin
    · rw [if_pos ho, List.filter_cons_of_neg (by simp [ho])]
      rfl
    · have howner : ∀ after, book.owner (.delivery c after heap origin data) = some c.id.raw :=
        fun _ => rfl
      rw [if_neg ho, List.filter_cons_of_pos (by simp [ho]), List.filter_nil, List.map_singleton,
        Book.post_cons, if_pos (howner _), Client.handleMediaDataOut_account]
      rfl
  | keyframeRequest origin req source midIn =>
    simp only [fanoutClient, Client.handleKeyframeRequest]
    repeat' split
    all_goals rfl
  | trackOpen | activeSpeakerChanged =>
    simp only [fanoutClient]
    split_ifs <;> rfl
  | _ => rfl

theorem driveSubscriber_entry (c : Client) (now : Instant) (b : BandwidthEstimator) (origin : ClientId) :
    (driveSubscriber b origin now c).client.entry = c.entry := by
  rcases driveSubscriber_cases c now b origin with ⟨h, -, -⟩ | ⟨s, -, -, -, h, -, -⟩
  · rw [h]
  · obtain ⟨_, _, hread⟩ := driveReading_client { c with lastPacerDrive := some now } now
      (asU64 (s.combinedBps now)) (some s)
    rw [h, hread]
    rfl

theorem driveSubscriber_silent (c : Client) (now : Instant) (b : BandwidthEstimator)
    (origin : ClientId) : ∀ o ∈ (driveSubscriber b origin now c).history, o.receiver = none := by
  rcases driveSubscriber_cases c now b origin with ⟨-, -, h⟩ | ⟨sub, -, -, -, -, -, h⟩
  · rw [h]
    simp
  · rw [h, driveReading_history]
    simp [Obs.receiver]

namespace Registry
variable {D : Type*} (F : Features) (now : Instant)

def accounts (r : Registry D) : List (ℕ × Account) := r.clients.map Client.entry

/-- The accounts of the room have become what the new history makes of them. -/
def Booked (r r' : Registry D) : Prop :=
  ∃ l, r'.history = r.history ++ l ∧ book.Settles l r.accounts r'.accounts

theorem numbers_eq (r : Registry D) : r.accounts.map Prod.fst = r.ids.map ClientId.raw := by
  rw [accounts, ids, List.map_map, List.map_map]
  rfl

variable {r r' r'' : Registry D}

theorem Booked.trans (h : r.Booked r') (h' : r'.Booked r'') : r.Booked r'' := by
  obtain ⟨l, hhistory, hsettles⟩ := h
  obtain ⟨m, hhistory', hsettles'⟩ := h'
  refine ⟨l ++ m, ?_, hsettles.trans hsettles'⟩
  rw [hhistory', hhistory, List.append_assoc]

theorem Booked.nodup (h : r.Booked r') (hids : r.ids.Nodup) : r'.ids.Nodup := by
  obtain ⟨l, -, hsettles⟩ := h
  have hnames := hsettles.names
  rw [numbers_eq, numbers_eq] at hnames
  rw [List.map_injective_iff.mpr (fun _ _ => ClientId.ext) hnames]
  exact hids

/-- New history that is about nobody, and the same accounts. -/
theorem Booked.of_silent {l : List Obs} (hhistory : r'.history = r.history ++ l)
    (hl : ∀ o ∈ l, o.receiver = none) (haccounts : r'.accounts = r.accounts) : r.Booked r' := by
  refine ⟨l, hhistory, haccounts ▸ .of_silent ?_ _⟩
  intro o ho
  rw [book_owner, hl o ho]
  rfl

theorem Booked.same (hhistory : r'.history = r.history) (haccounts : r'.accounts = r.accounts) :
    r.Booked r' :=
  .of_silent (by rw [hhistory, List.append_nil]) (by simp) haccounts

theorem fanout_booked (hids : r.ids.Nodup) (p : Propagated) : r.Booked (r.fanout now p) := by
  refine ⟨deliveries r.heap r.clients p, fanout_history now r p, ?_, ?_⟩
  · intro o ho k hk
    obtain ⟨c, hc, hreceiver⟩ := deliveries_receiver r.heap r.clients p o ho
    rw [book_owner, hreceiver] at hk
    cases hk
    exact List.mem_map.mpr ⟨c.entry, List.mem_map_of_mem hc, rfl⟩
  · simp only [accounts, fanout, List.map_map]
    apply List.map_congr_left
    intro c hc
    have hid : (fanoutClient r.heap now p c).1.id = c.id :=
      congrArg Prod.fst (fanoutClient_badge c now r.heap p)
    have haccount := fanoutClient_account r.heap now p c
    rw [← post_deliveries r.heap p hids hc] at haccount
    exact Prod.ext (congrArg ClientId.raw hid) haccount

theorem updatePacerLayers_booked (origin : ClientId) :
    r.Booked (r.updatePacerLayers origin now) := by
  apply Booked.of_silent (updatePacerLayers_history r origin now)
  · intro o ho
    obtain ⟨c, -, hc⟩ := List.mem_flatMap.mp ho
    exact driveSubscriber_silent c now r.bandwidth origin o hc
  · rw [accounts, updatePacerLayers_clients, List.map_map]
    exact List.map_congr_left fun c _ => driveSubscriber_entry c now r.bandwidth origin

theorem fanoutEvent_booked (hids : r.ids.Nodup) (p : Propagated) :
    r.Booked (r.fanoutEvent F now p) := by
  cases p with
  | mediaData origin data =>
    simp only [fanoutEvent]
    split_ifs
    · have hpacer : r.Booked (r.updatePacerLayers origin now) := updatePacerLayers_booked now origin
      exact hpacer.trans (fanout_booked now (hpacer.nodup hids) _)
    · exact fanout_booked now hids _
  | clientBudgetHint peer bps =>
    simp only [fanoutEvent]
    split_ifs
    · exact .same rfl rfl
    · exact fanout_booked now hids _
  | _ => exact fanout_booked now hids _

theorem fanoutPending_booked (hids : r.ids.Nodup) : r.Booked (r.fanoutPending F now) := by
  apply fanoutPending_invariant F now (P := fun s => r.Booked s) _ (.same rfl rfl)
  intro s hs
  unfold fanoutStep
  split
  · exact hs
  · next p rest hq =>
    have hstep := fanoutEvent_booked F now (r := { s with toPropagate := rest }) (hs.nodup hids) p
    exact hs.trans hstep

section Poll
variable [ActiveSpeakerDetector D]

theorem handlePolled_accounts (clock : Instant) {i : ℕ} {c : Client} {st : PollState D}
    (hc : st.reg.clients[i]? = some c) (p : Propagated) :
    (handlePolled F now clock i c st p).1.reg.accounts = st.reg.accounts := by
  obtain ⟨_, hlevel⟩ := recordPolledLevel_eq F clock c st.reg p
  cases p with
  | bandwidthEstimate peer bps =>
    simp only [handlePolled]
    split_ifs
    · rfl
    · obtain ⟨_, _, hread⟩ := driveReading_client c clock bps none
      apply map_set_eq _ _ hc
      rw [hread]
      rfl
    · rfl
  | timeout | noop | rtcpStats => rfl
  | _ =>
    simp only [handlePolled, hlevel]
    rfl

theorem handlePolled_silent (clock : Instant) (i : ℕ) (c : Client) (st : PollState D)
    (p : Propagated) : ∃ l, (handlePolled F now clock i c st p).1.reg.history =
      st.reg.history ++ l ∧ ∀ o ∈ l, o.receiver = none := by
  obtain ⟨_, hlevel⟩ := recordPolledLevel_eq F clock c st.reg p
  have hnone : st.reg.history = st.reg.history ++ [] := (List.append_nil _).symm
  cases p with
  | bandwidthEstimate peer bps =>
    simp only [handlePolled]
    split_ifs
    · exact ⟨[], hnone, by simp⟩
    · refine ⟨_, rfl, ?_⟩
      simp [Obs.receiver]
    · exact ⟨[], hnone, by simp⟩
  | timeout | noop | rtcpStats => exact ⟨[], hnone, by simp⟩
  | _ =>
    simp only [handlePolled, hlevel]
    exact ⟨[], hnone, by simp⟩

theorem pollStep_accounts (i : ℕ) (st : PollState D) (x : Instant × PollResult) :
    (pollStep F now i st x).1.reg.accounts = st.reg.accounts := by
  unfold pollStep
  cases hc : st.reg.clients[i]? with
  | none => rfl
  | some c =>
    dsimp only
    split_ifs
    · have hlt : i < st.reg.clients.length := (List.getElem?_eq_some_iff.mp hc).choose
      rw [handlePolled_accounts F now x.1 (List.getElem?_set_self hlt)]
      exact map_set_eq _ _ hc (c.pollOutput_entry st.reg.heap st.nextAlloc x.1 x.2)
    · rfl

theorem pollStep_booked (i : ℕ) (st : PollState D) (x : Instant × PollResult) :
    st.reg.Booked (pollStep F now i st x).1.reg := by
  have hsilent : ∃ l, (pollStep F now i st x).1.reg.history = st.reg.history ++ l ∧
      ∀ o ∈ l, o.receiver = none := by
    unfold pollStep
    cases st.reg.clients[i]? with
    | none => exact ⟨[], (List.append_nil _).symm, by simp⟩
    | some c =>
      dsimp only
      split_ifs
      · exact handlePolled_silent F now x.1 i _ _ _
      · exact ⟨[], (List.append_nil _).symm, by simp⟩
  obtain ⟨l, hhistory, hl⟩ := hsilent
  exact .of_silent hhistory hl (pollStep_accounts F now i st x)

theorem pollAll_booked (feed : Feed) (nextAlloc : WeakTrack) (r : Registry D) :
    r.Booked (r.pollAll F now feed nextAlloc).reg := by
  apply pollAll_invariant F now feed (P := fun st => r.Booked st.reg)
  · intro i st c x _ _ _ hst
    exact hst.trans (pollStep_booked F now i st x)
  · intro st a s hst
    refine hst.trans (.of_silent rfl ?_ rfl)
    intro o ho
    obtain ⟨c, -, rfl⟩ := List.mem_map.mp ho
    rfl
  · exact .same rfl rfl

end Poll
end Registry

/-- A call of the application, with the layer caps it may set, or an entry that SDP negotiation
opens. -/
inductive Move where
  | call (op : Op)
  | setMaxTemporalLayer (id : ClientId) (max : UInt8)
  | setMaxVfmTemporalLayer (id : ClientId) (max : UInt8)
  | negotiated (id : ClientId) (trackIn : WeakTrack) (mid : SfuMid)

/-- The accounts that a move opens: what the connection of a new client had written. -/
def Move.opens : Move → List Account
  | .call (.clientNew rtc _) => [(0, rtc.written)]
  | _ => []

namespace Process
variable {D : Type*} [ActiveSpeakerDetector D] (F : Features)

def move (p : Process D) : Move → Process D
  | .call op => p.step F op
  | .setMaxTemporalLayer id max => p.onClient id fun c => c.setMaxTemporalLayer max
  | .setMaxVfmTemporalLayer id max => p.onClient id fun c => c.setMaxVfmTemporalLayer max
  | .negotiated id trackIn mid => p.onClient id fun c => c.negotiated trackIn mid

theorem move_wellFormed (p : Process D) (x : Move) (hr : p.room.WellFormed) :
    (p.move F x).room.WellFormed := by
  cases x with
  | call op => exact wellFormed_step F p op hr
  | setMaxTemporalLayer id max =>
    have hroom := onClient_room p id (f := fun c => c.setMaxTemporalLayer max) fun _ => rfl
    rw [move, hroom]
    exact hr
  | setMaxVfmTemporalLayer id max =>
    have hroom := onClient_room p id (f := fun c => c.setMaxVfmTemporalLayer max) fun _ => rfl
    rw [move, hroom]
    exact hr
  | negotiated id trackIn mid =>
    have hmember : ∀ c : Client, (c.negotiated trackIn mid).member = c.member := by
      intro c
      simp only [Client.negotiated, Client.member, List.map_map]
      congr 1
      apply List.map_congr_left
      intro o _
      rw [Function.comp_apply]
      split_ifs <;> rfl
    rw [move, onClient_room p id hmember]
    exact hr

def accounts (p : Process D) : List (ℕ × Account) := p.clients.map Client.entry

/-- The process keeps its books from the one state to the other. -/
def Keeps (p q : Process D) (opened : List Account) : Prop :=
  q.idCounter = p.idCounter + opened.length ∧ ∃ l, q.reg.history = p.reg.history ++ l ∧
    book.Posts l p.idCounter opened p.accounts q.accounts

omit [ActiveSpeakerDetector D] in
theorem Keeps.of_subset {p q : Process D} (hcounter : q.idCounter = p.idCounter)
    (hhistory : q.reg.history = p.reg.history) (haccounts : q.accounts ⊆ p.accounts) :
    p.Keeps q [] :=
  ⟨hcounter, [], by rw [hhistory, List.append_nil], .of_subset haccounts _⟩

omit [ActiveSpeakerDetector D] in
theorem Keeps.of_registry {p q : Process D} (hr : p.room.WellFormed) (hreg : p.reg.Booked q.reg)
    (hheld : q.held = p.held) (hcounter : q.idCounter = p.idCounter) : p.Keeps q [] := by
  obtain ⟨l, hhistory, hsettles⟩ := hreg
  refine ⟨hcounter, l, hhistory, ?_⟩
  have hsplit : ∀ p : Process D, p.accounts = p.reg.accounts ++ p.held.map Client.entry :=
    fun _ => List.map_append
  rw [hsplit p, hsplit q, hheld]
  apply hsettles.posts
  · intro x hx hmem
    obtain ⟨c, hc, rfl⟩ := List.mem_map.mp hx
    rw [Registry.numbers_eq] at hmem
    obtain ⟨id, hid, hraw⟩ := List.mem_map.mp hmem
    rw [ClientId.ext hraw] at hid
    exact held_not_mem_ids hr hc hid
  · intro x hx
    obtain ⟨c, hc, rfl⟩ := List.mem_map.mp hx
    exact lt_idCounter hr (List.mem_append_left _ hc)

omit [ActiveSpeakerDetector D] in
theorem Keeps.of_client (p : Process D) (id : ClientId) {f : Client → Client}
    (hf : ∀ c, (f c).entry = c.entry) : p.Keeps (p.onClient id f) [] := by
  apply Keeps.of_subset
  · rfl
  · rfl
  · intro x hx
    obtain ⟨c', hc', rfl⟩ := List.mem_map.mp hx
    have hupdate : ∀ l : List Client, c' ∈ updateClient id f l → c'.entry ∈ l.map Client.entry := by
      intro l hl
      obtain ⟨c, hc, rfl⟩ := List.mem_map.mp hl
      split_ifs
      · rw [hf]
        exact List.mem_map_of_mem hc
      · exact List.mem_map_of_mem hc
    rw [accounts, clients, List.map_append]
    rcases List.mem_append.mp hc' with hc' | hc'
    · exact List.mem_append_left _ (hupdate _ hc')
    · exact List.mem_append_right _ (hupdate _ hc')

omit [ActiveSpeakerDetector D] in
theorem Keeps.same {p q : Process D} (hhistory : q.reg.history = p.reg.history)
    (hclients : q.reg.clients = p.reg.clients) (hheld : q.held = p.held)
    (hcounter : q.idCounter = p.idCounter) : p.Keeps q [] := by
  apply Keeps.of_subset hcounter hhistory
  rw [accounts, clients, hclients, hheld]
  exact List.Subset.refl _

omit [ActiveSpeakerDetector D] in
theorem Keeps.clientNew (p : Process D) (rtc : Rtc) (handle : MetricsHandle) :
    p.Keeps (p.clientNew rtc handle) [(0, rtc.written)] := by
  obtain ⟨hheld, hclients, hcounter, -, -⟩ := clientNew_spec p rtc handle
  have hhistory : (p.clientNew rtc handle).reg.history = p.reg.history := by
    obtain ⟨_, hreg⟩ := metricsCalls_reg { p with
      held := p.held ++ [(Client.new ⟨p.idCounter⟩ rtc handle).1]
      idCounter := p.idCounter + 1 } handle (Client.new ⟨p.idCounter⟩ rtc handle).2
    simp only [Process.clientNew]
    rw [hreg]
  refine ⟨hcounter, [], by rw [List.append_nil]; exact hhistory, .open _ _ ?_⟩
  intro x hx
  simp only [accounts, clients, hheld, hclients, ← List.append_assoc, List.map_append] at hx
  rcases List.mem_append.mp hx with hx | hx
  · rw [accounts, clients, List.map_append]
    exact .inl hx
  · exact .inr (List.mem_singleton.mp hx)

omit [ActiveSpeakerDetector D] in
theorem Keeps.heldPoll (p : Process D) (id : ClientId) (clock : Instant) (result : PollResult) :
    p.Keeps (p.heldPoll id clock result) [] := by
  unfold Process.heldPoll
  cases hx : p.heldAt id with
  | none => exact .same rfl rfl rfl rfl
  | some x =>
    obtain ⟨j, c⟩ := x
    obtain ⟨hj, -⟩ := heldAt_eq_some hx
    dsimp only
    have hentry := c.pollOutput_entry p.reg.heap p.nextAlloc clock result
    generalize c.pollOutput p.reg.heap p.nextAlloc clock result = q at hentry
    obtain ⟨_, hreg⟩ := metricsCalls_reg { p with held := p.held.set j q.1
                                                  nextAlloc := p.nextAlloc + 1 } c.metrics q.2.2
    apply Keeps.of_subset (by simp) (by rw [hreg])
    simp only [accounts, clients, metricsCalls_clients, List.map_append]
    rw [map_set_eq Client.entry _ hj hentry]
    exact List.Subset.refl _

/-- An account goes from the clients that the application holds to those of the room. -/
theorem Keeps.insert (p : Process D) (id : ClientId) (now : Instant) :
    p.Keeps (p.insert F now id) [] := by
  unfold Process.insert
  cases hx : p.heldAt id with
  | none => exact .same rfl rfl rfl rfl
  | some x =>
    obtain ⟨j, c⟩ := x
    obtain ⟨hj, -⟩ := heldAt_eq_some hx
    dsimp only
    apply Keeps.of_subset
    · rfl
    · simp only [Registry.insert]
    · intro x hx
      simp only [accounts, clients, Registry.insert_clients, List.map_append,
        List.append_assoc] at hx ⊢
      rcases List.mem_append.mp hx with hx | hx
      · exact List.mem_append_left _ hx
      · apply List.mem_append_right
        rcases List.mem_append.mp hx with hx | hx
        · rw [List.mem_singleton.mp hx]
          exact List.mem_map.mpr ⟨c, List.mem_of_getElem? hj, rfl⟩
        · exact ((List.eraseIdx_sublist ..).map _).subset hx

theorem step_keeps {p : Process D} (hr : p.room.WellFormed) (op : Op) :
    p.Keeps (p.step F op) (Move.call op).opens := by
  have hnotice (hquiet : op.isNotice = true) : p.Keeps (p.step F op) [] := by
    obtain ⟨_, _, _, -, hstep⟩ := p.step_notice F hquiet
    rw [hstep]
    exact .same rfl rfl rfl rfl
  cases op with
  | clientNew rtc handle => exact .clientNew p rtc handle
  | heldPoll id clock result => exact .heldPoll p id clock result
  | setOrigin id origin => exact .of_client p id fun _ => rfl
  | setDesiredLayer id rid => exact .of_client p id fun _ => rfl
  | connection id alive writers => exact .of_client p id fun _ => rfl
  | dropHeld id =>
    simp only [step, dropHeld]
    split
    · exact .same rfl rfl rfl rfl
    · refine Keeps.of_subset rfl rfl ?_
      exact (((List.eraseIdx_sublist ..).append_left _).map _).subset
  | insert id now => exact .insert F p id now
  | pollAll now feed =>
    exact .of_registry hr (Registry.pollAll_booked F now feed p.nextAlloc p.reg) rfl rfl
  | fanoutPending now =>
    exact .of_registry hr (Registry.fanoutPending_booked F now (ids_nodup hr)) rfl rfl
  | updatePacerLayers origin now =>
    simp only [step]
    split_ifs
    · exact .of_registry hr (Registry.updatePacerLayers_booked now origin) rfl rfl
    · exact .same rfl rfl rfl rfl
  | reapDead =>
    refine Keeps.of_subset rfl rfl ?_
    exact ((List.filter_sublist.append_right _).map _).subset
  | emitPublisherLayerHints | clientBudgetHint | recordAudioLevel | tickActiveSpeaker
    | tickSpeakerScores => exact hnotice rfl
  | _ =>
    simp only [step]
    split_ifs <;> exact .same rfl rfl rfl rfl

theorem move_keeps {p : Process D} (hr : p.room.WellFormed) (x : Move) :
    p.Keeps (p.move F x) x.opens := by
  cases x with
  | call op => exact step_keeps F hr op
  | setMaxTemporalLayer id _ | setMaxVfmTemporalLayer id _ | negotiated id _ _ =>
    exact .of_client p id fun _ => rfl

/-- The account of every client of a run is the history, posted to what its connection had
written when the client was made. -/
theorem accounts_run (now : Instant) (moves : List Move) :
    let p : Process D := Run.run (move F) (start now) moves
    ∀ c ∈ p.clients, ∃ opened ∈ (moves.flatMap Move.opens)[c.id.raw]?,
      c.account = book.post c.id.raw p.reg.history opened := by
  intro p c hc
  have hstart : (start now : Process D).room.WellFormed := Announcement.Room.wellFormed_empty
  obtain ⟨l, hlog, hposts⟩ := Book.run_posts book (fun p : Process D => p.reg.history)
    idCounter accounts Move.opens (fun p x h => move_wellFormed F p x h)
    (fun p x h => move_keeps F h x) hstart moves
  have hhistory : p.reg.history = l := hlog
  rcases hposts.posted c.entry (List.mem_map_of_mem hc) with ⟨_, h, -⟩ | ⟨b, -, hb, hbalance⟩
  · cases h
  · rw [hhistory]
    exact ⟨b, hb, hbalance⟩

/-- In every state of every run, a client's counter of delivered media is the number of
deliveries to it that passed its filters. -/
theorem deliveredMedia_run (now : Instant) (moves : List Move) :
    let p : Process D := Run.run (move F) (start now) moves
    ∀ c ∈ p.clients, c.deliveredMedia = passed c.id p.reg.history := by
  intro p c hc
  obtain ⟨opened, hopened, haccount⟩ := accounts_run F now moves c hc
  rw [post_book] at haccount
  have hzero : opened.1 = 0 := by
    obtain ⟨x, -, hx⟩ := List.mem_flatMap.mp (List.mem_of_getElem? hopened)
    unfold Move.opens at hx
    split at hx
    · rw [List.mem_singleton.mp hx]
    · cases hx
  have hcount := congrArg Prod.fst haccount
  rw [hzero, Nat.zero_add] at hcount
  exact hcount

end Process
end SfuKit
