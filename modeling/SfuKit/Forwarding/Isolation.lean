import SfuKit.Forwarding.PliRelay
import SfuKit.Library.Broadcast
import SfuKit.Model.PeerDetector
import SfuKit.Tracks.Listings

/-! # The drain loop as a broadcast

`fanout_pending` shows every event to every client and to the estimator, and what it enqueues
while it runs means nothing to either. So a client ends where it would have ended alone with
the queue, whatever the other clients are like.
-/
namespace SfuKit

open Library Broadcast

/-- The drive that precedes the fanout of a packet. -/
def drivenBy (F : Features) (now : Instant) (b : BandwidthEstimator) (p : Propagated)
    (c : Client) : Driven :=
  match p with
  | .mediaData origin _ => if F.pacerLayersDrive then driveSubscriber b origin now c else .skip c
  | _ => .skip c

/-- What the drain loop does with one event, read client by client. -/
def fanoutHandler (F : Features) (now : Instant) (heap : List ArcTrack) :
    Handler BandwidthEstimator Client Propagated where
  env b p :=
    match p with
    | .clientBudgetHint id bps => if F.kalmanBwe then b.recordClientHint id bps now else b
    | _ => b
  part b p c := (fanoutClient heap now p (drivenBy F now b p c).client).1
  emit b p c := (drivenBy F now b p c).events

/-- The track announcement an event holds for this client. -/
def Propagated.announcesTo (c : Client) : Propagated → Option TrackOut
  | .trackOpen origin w => if c.id = origin then none else some ⟨w, .toOpen⟩
  | _ => none

/-- The keyframe request an event has this client write. -/
def Propagated.requestsOf (c : Client) (now : Instant) : Propagated → Option KeyframeCall
  | .keyframeRequest origin req source midIn =>
    if c.id ≠ origin ∧ source = c.id ∧ c.takesRequests midIn = true then
      some ⟨now, midIn, req.rid, req.kind⟩
    else none
  | _ => none

/-- The event makes somebody else the dominant speaker. -/
def Propagated.electsOther (c : Client) : Propagated → Bool
  | .activeSpeakerChanged peerId _ => decide (c.id.raw ≠ peerId)
  | _ => false

section Client
variable (F : Features) (c : Client) (now : Instant)

theorem drivenBy_client (b : BandwidthEstimator) (p : Propagated) :
    ∃ pacer desiredLayer chosenRid suspended lastPacerDrive, (drivenBy F now b p c).client =
      { c with pacer, desiredLayer, chosenRid, suspended, lastPacerDrive } := by
  have hskip : ∃ pacer desiredLayer chosenRid suspended lastPacerDrive, (Driven.skip c).client =
      { c with pacer, desiredLayer, chosenRid, suspended, lastPacerDrive } :=
    ⟨_, _, _, _, _, rfl⟩
  cases p with
  | mediaData origin data =>
    simp only [drivenBy]
    split_ifs
    · rcases driveSubscriber_cases c now b origin with ⟨h, -, -⟩ | ⟨sub, -, -, -, h, -, -⟩
      · rw [h]
        exact hskip
      · obtain ⟨_, _, hread⟩ := driveReading_client { c with lastPacerDrive := some now } now
          (asU64 (sub.combinedBps now)) (some sub)
        rw [h, hread]
        exact ⟨_, _, _, _, _, rfl⟩
    · exact hskip
  | _ => exact hskip

theorem drivenBy_isMode (b : BandwidthEstimator) (p : Propagated) :
    ∀ e ∈ (drivenBy F now b p c).events, e.isMode = true := by
  cases p with
  | mediaData origin data =>
    simp only [drivenBy]
    split_ifs
    · exact (driveSubscriber_emits c now b origin).2
    · simp [Driven.skip]
  | _ => simp [drivenBy, Driven.skip]

/-- A change of mode is for the application. -/
theorem inert_of_isMode (heap : List ArcTrack) {e : Propagated} (h : e.isMode = true) :
    (fanoutHandler F now heap).Inert e := by
  cases e <;> first
    | exact ⟨fun _ => rfl, fun _ _ => rfl⟩
    | cases h

/-- Of the tracks of the room the fanout sees what a subscription refers to. -/
theorem fanoutClient_congr {heap heap' : List ArcTrack} (h : upgrade heap = upgrade heap')
    (p : Propagated) : (fanoutClient heap now p c).1 = (fanoutClient heap' now p c).1 := by
  have hmatch : Client.matchesTrack heap = Client.matchesTrack heap' := by
    funext origin mid o
    simp only [Client.matchesTrack, h]
  have hwrite : ∀ (c : Client) origin data, c.writeOut heap origin data =
      c.writeOut heap' origin data := by
    intro c origin data
    unfold Client.writeOut
    rw [hmatch]
  cases p with
  | mediaData origin data =>
    have hvideo : c.isVideoTrack heap origin data.mid = c.isVideoTrack heap' origin data.mid := by
      simp only [Client.isVideoTrack, h]
    simp only [fanoutClient, Client.handleMediaDataOut, hvideo]
    split_ifs
    · rfl
    · rfl
    · exact hwrite _ origin data
    · rfl
    · rfl
  | _ => rfl

theorem fanoutClient_control (heap : List ArcTrack) (p : Propagated) :
    let c' := (fanoutClient heap now p c).1
    c'.tracksOut = c.tracksOut ++ (p.announcesTo c).toList ∧
      c'.rtc.keyframeCalls = (p.requestsOf c now).toList ++ c.rtc.keyframeCalls ∧
      c'.deliveredActiveSpeaker = c.deliveredActiveSpeaker + (p.electsOther c).toNat := by
  have hsame : c.tracksOut = c.tracksOut ++ (none : Option TrackOut).toList ∧
      c.rtc.keyframeCalls = (none : Option KeyframeCall).toList ++ c.rtc.keyframeCalls ∧
      c.deliveredActiveSpeaker = c.deliveredActiveSpeaker + false.toNat := by simp
  cases p with
  | trackOpen origin w =>
    simp only [fanoutClient, Propagated.announcesTo]
    split_ifs
    · exact hsame
    · exact ⟨rfl, hsame.2⟩
  | mediaData origin data =>
    obtain ⟨_, _, _, h⟩ := c.handleMediaDataOut_eq heap origin data
    have hcalls : (c.handleMediaDataOut heap origin data).1.rtc.keyframeCalls =
        c.rtc.keyframeCalls := by
      rw [Client.handleMediaDataOut_rtc]
      split_ifs
      · obtain ⟨_, _, hw⟩ := c.writeOut_rtc heap origin data
        rw [hw]
      · rfl
    simp only [fanoutClient]
    split_ifs
    · exact hsame
    · refine ⟨?_, hcalls, ?_⟩
      · rw [h]
        exact hsame.1
      · rw [h]
        exact hsame.2.2
  | keyframeRequest origin req source midIn =>
    simp only [fanoutClient, Propagated.requestsOf, Client.handleKeyframeRequest_eq]
    by_cases hto : c.id ≠ origin ∧ source = c.id
    · rw [if_pos hto]
      by_cases hmid : c.takesRequests midIn = true
      · rw [if_pos hmid, if_pos ⟨hto.1, hto.2, hmid⟩]
        exact ⟨hsame.1, rfl, hsame.2.2⟩
      · rw [if_neg hmid, if_neg fun h => hmid h.2.2]
        exact hsame
    · rw [if_neg hto, if_neg fun h => hto ⟨h.1, h.2.1⟩]
      exact hsame
  | activeSpeakerChanged peerId conf =>
    simp only [fanoutClient, Propagated.electsOther]
    by_cases hself : c.id.raw = peerId
    · rw [if_pos hself]
      simp [hself, Propagated.announcesTo, Propagated.requestsOf]
    · rw [if_neg hself]
      simp [hself, Propagated.announcesTo, Propagated.requestsOf,
        Client.handleActiveSpeakerChanged]
  | _ => exact hsame

end Client

section Fold
variable (F : Features) (now : Instant) (heap : List ArcTrack)

/-- Who a client is to the others, which no event changes. -/
theorem part_identity (b : BandwidthEstimator) (p : Propagated) (c : Client) :
    let c' := (fanoutHandler F now heap).part b p c
    c'.id = c.id ∧ c'.tracksIn = c.tracksIn ∧ c'.rtc.writers = c.rtc.writers := by
  obtain ⟨_, _, _, _, _, h⟩ := drivenBy_client F c now b p
  simp only [fanoutHandler, h]
  refine ⟨congrArg Prod.fst (fanoutClient_badge _ now heap p), fanoutClient_tracksIn _ now heap p, ?_⟩
  cases p with
  | mediaData origin data =>
    simp only [fanoutClient]
    split_ifs
    · rfl
    · exact (Client.handleMediaDataOut_requests _ heap origin data).1
  | keyframeRequest origin req source midIn =>
    simp only [fanoutClient, Client.handleKeyframeRequest_eq]
    split_ifs <;> rfl
  | trackOpen origin w => simp only [fanoutClient]; split_ifs <;> rfl
  | activeSpeakerChanged peer conf => simp only [fanoutClient]; split_ifs <;> rfl
  | _ => rfl

/-- What a control message means to a client depends on its identity. -/
theorem hear_congr {c d : Client} (hid : d.id = c.id) (ht : d.tracksIn = c.tracksIn)
    (hw : d.rtc.writers = c.rtc.writers) : Propagated.announcesTo d = Propagated.announcesTo c ∧
      Propagated.requestsOf d now = Propagated.requestsOf c now ∧
      Propagated.electsOther d = Propagated.electsOther c := by
  have htakes : d.takesRequests = c.takesRequests := by
    funext mid
    simp only [Client.takesRequests, Rtc.writer, ht, hw]
  refine ⟨?_, ?_, ?_⟩
  · funext e
    cases e <;> simp only [Propagated.announcesTo, hid]
  · funext e
    cases e <;> simp only [Propagated.requestsOf, htakes, hid]
  · funext e
    cases e <;> simp only [Propagated.electsOther, hid]

theorem part_control (b : BandwidthEstimator) (p : Propagated) (c : Client) :
    let c' := (fanoutHandler F now heap).part b p c
    c'.tracksOut = c.tracksOut ++ (p.announcesTo c).toList ∧
      c'.rtc.keyframeCalls = (p.requestsOf c now).toList ++ c.rtc.keyframeCalls ∧
      c'.deliveredActiveSpeaker = c.deliveredActiveSpeaker + (p.electsOther c).toNat := by
  obtain ⟨_, _, _, _, _, h⟩ := drivenBy_client F c now b p
  have hstep := fanoutClient_control (drivenBy F now b p c).client now heap p
  obtain ⟨hann, hreq, helect⟩ := hear_congr now (c := c) (d := (drivenBy F now b p c).client)
    (by rw [h]) (by rw [h]) (by rw [h])
  rw [hann, hreq, helect] at hstep
  have htracks : (drivenBy F now b p c).client.tracksOut = c.tracksOut := by rw [h]
  have hcalls : (drivenBy F now b p c).client.rtc = c.rtc := by rw [h]
  have hcount : (drivenBy F now b p c).client.deliveredActiveSpeaker =
      c.deliveredActiveSpeaker := by rw [h]
  rw [htracks, hcalls, hcount] at hstep
  exact hstep

theorem foldl_control (q : List Propagated) (b : BandwidthEstimator) (c : Client) :
    let c' := (q.foldl (fanoutHandler F now heap).solo (b, c)).2
    c'.tracksOut = c.tracksOut ++ q.filterMap (Propagated.announcesTo c) ∧
      c'.rtc.keyframeCalls =
        (q.filterMap (Propagated.requestsOf c now)).reverse ++ c.rtc.keyframeCalls ∧
      c'.deliveredActiveSpeaker =
        c.deliveredActiveSpeaker + q.countP (Propagated.electsOther c) := by
  induction q generalizing b c with
  | nil => simp
  | cons p q ih =>
    obtain ⟨hid, ht, hw⟩ := part_identity F now heap b p c
    obtain ⟨hann, hreq, helect⟩ := hear_congr now hid ht hw
    obtain ⟨htracks, hcalls, hcount⟩ := part_control F now heap b p c
    have hrest := ih ((fanoutHandler F now heap).env b p) ((fanoutHandler F now heap).part b p c)
    rw [hann, hreq, helect, htracks, hcalls, hcount] at hrest
    rw [List.foldl_cons, Handler.solo]
    refine ⟨hrest.1.trans ?_, hrest.2.1.trans ?_, hrest.2.2.trans ?_⟩
    · rw [List.append_assoc]
      cases hp : p.announcesTo c <;> simp [hp]
    · rw [← List.append_assoc]
      cases hp : p.requestsOf c now <;> simp [hp]
    · rw [List.countP_cons]
      cases p.electsOther c <;> simp
      omega

end Fold

namespace Registry
variable {D : Type*} (F : Features) (now : Instant)

def pool (r : Registry D) : Pool BandwidthEstimator Client Propagated :=
  ⟨r.bandwidth, r.clients, r.toPropagate⟩

@[simp] theorem updatePacerLayers_heap (r : Registry D) (origin : ClientId) :
    (r.updatePacerLayers origin now).heap = r.heap := by
  rw [heap_eq_listings, updatePacerLayers_listings, heap_eq_listings]

theorem fanoutEvent_pool (r : Registry D) (p : Propagated) :
    (r.fanoutEvent F now p).pool =
      { env := (fanoutHandler F now r.heap).env r.bandwidth p
        parts := r.clients.map ((fanoutHandler F now r.heap).part r.bandwidth p)
        queue := r.toPropagate ++
          r.clients.flatMap ((fanoutHandler F now r.heap).emit r.bandwidth p) } := by
  -- Without a drive nothing is appended.
  have hskip : ∀ e : Propagated, (∀ b c, drivenBy F now b e c = .skip c) →
      (r.fanout now e).pool =
        ⟨r.bandwidth, r.clients.map ((fanoutHandler F now r.heap).part r.bandwidth e),
          r.toPropagate ++ r.clients.flatMap ((fanoutHandler F now r.heap).emit r.bandwidth e)⟩ := by
    intro e he
    have hemit : (fanoutHandler F now r.heap).emit r.bandwidth e = fun _ => [] := by
      funext c
      simp only [fanoutHandler, he]
      rfl
    rw [hemit, List.flatMap_eq_nil_iff.mpr fun _ _ => rfl, List.append_nil]
    simp [pool, fanout, fanoutHandler, he, Driven.skip]
  cases p with
  | mediaData origin data =>
    by_cases hF : F.pacerLayersDrive = true
    · simp only [fanoutEvent, hF, if_true, fanout, pool, updatePacerLayers_heap]
      simp [updatePacerLayers, fanoutHandler, drivenBy, hF, List.flatMap_map, Function.comp_def]
    · simp only [fanoutEvent, hF]
      exact hskip _ fun b c => by simp [drivenBy, hF]
  | clientBudgetHint peer bps =>
    simp only [fanoutEvent]
    by_cases hF : F.kalmanBwe = true
    · rw [if_pos hF]
      simp [pool, fanoutHandler, drivenBy, Driven.skip, fanoutClient, hF]
    · rw [if_neg hF]
      have hsame := hskip (.clientBudgetHint peer bps) fun _ _ => rfl
      simpa [fanoutHandler, hF] using hsame
  | _ => exact hskip _ fun _ _ => rfl

theorem fanoutStep_pool (r : Registry D) :
    (r.fanoutStep F now).pool = (fanoutHandler F now r.heap).step r.pool := by
  unfold fanoutStep
  cases hq : r.toPropagate with
  | nil => simp [Handler.step, pool, hq]
  | cons p rest =>
    dsimp only
    rw [fanoutEvent_pool]
    simp only [Handler.step, pool, hq]
    rfl

/-- The drain loop takes the estimator and every client to where the queue would take them if
they were alone with it. -/
theorem fanoutPending_settle (r : Registry D) :
    ((r.fanoutPending F now).bandwidth, (r.fanoutPending F now).clients) =
      (fanoutHandler F now r.heap).settle r.pool := by
  have hiter : ∀ n, ((fanoutStep F now)^[n] r).pool =
      (fanoutHandler F now r.heap).step^[n] r.pool ∧
        ((fanoutStep F now)^[n] r).heap = r.heap := by
    intro n
    induction n with
    | zero => exact ⟨rfl, rfl⟩
    | succ n ih =>
      rw [Function.iterate_succ_apply', Function.iterate_succ_apply', fanoutStep_pool,
        fanoutStep_heap, ih.1, ih.2]
      exact ⟨rfl, rfl⟩
  have hpool : (r.fanoutPending F now).pool =
      (fanoutHandler F now r.heap).step^[r.drainCost] r.pool := (hiter _).1
  have hempty : ((fanoutHandler F now r.heap).step^[r.drainCost] r.pool).queue = [] := by
    rw [← hpool]
    exact fanoutPending_toPropagate F now r
  have hdrained := Handler.drained
    (fun b p c e he => inert_of_isMode F now r.heap (drivenBy_isMode F c now b p e he)) r.pool
    r.drainCost hempty
  rw [← hpool] at hdrained
  exact hdrained

theorem fanoutPending_clients (r : Registry D) : (r.fanoutPending F now).clients =
    r.clients.map fun c =>
      (r.toPropagate.foldl (fanoutHandler F now r.heap).solo (r.bandwidth, c)).2 :=
  congrArg Prod.snd (fanoutPending_settle F now r)

/-- Two rooms with the same queue, of whose tracks a subscription sees the same, take a client
with the same estimator entry to the same state, whoever else is in them. -/
theorem fanoutPending_isolated (r r' : Registry D) {i j : ℕ} {c : Client}
    (hi : r.clients[i]? = some c) (hj : r'.clients[j]? = some c)
    (hqueue : r.toPropagate = r'.toPropagate) (htracks : upgrade r.heap = upgrade r'.heap)
    (hentry : r.bandwidth.subscribers.lookup c.id = r'.bandwidth.subscribers.lookup c.id) :
    (r.fanoutPending F now).clients[i]? = (r'.fanoutPending F now).clients[j]? := by
  have hheap : (fanoutHandler F now r.heap).solo = (fanoutHandler F now r'.heap).solo := by
    funext x p
    simp only [Handler.solo, fanoutHandler]
    rw [fanoutClient_congr _ now htracks]
  rw [fanoutPending_clients, fanoutPending_clients, List.getElem?_map, List.getElem?_map, hi, hj,
    Option.map_some, Option.map_some, hqueue, hheap]
  congr 1
  apply Handler.foldl_solo_congr
    (R := fun c b b' => b.subscribers.lookup c.id = b'.subscribers.lookup c.id) _ _ hentry
  · intro p _ b b' c hlook
    rw [(part_identity F now r'.heap b p c).1]
    cases p with
    | clientBudgetHint id bps =>
      simp only [fanoutHandler]
      split_ifs
      · simp only [BandwidthEstimator.recordClientHint, BandwidthEstimator.lookup_modify,
          BandwidthEstimator.getOrInsert]
        split_ifs with hid
        · rw [← hid, hlook]
        · exact hlook
      · exact hlook
    | _ => exact hlook
  · intro p _ b b' c hlook
    have hdriven : drivenBy F now b p c = drivenBy F now b' p c := by
      cases p with
      | mediaData origin data =>
        simp only [drivenBy, driveSubscriber, BandwidthEstimator.estimateWithTerm, hlook]
      | _ => rfl
    simp only [fanoutHandler, hdriven]

/-- A publisher with a camera and its only subscriber, who has bandwidth for it. -/
def twoPeers : Registry PeerDetector :=
  { new 0 with
    clients :=
      [{ (Client.new ⟨0⟩ .new .registry).1 with
          tracksIn := [⟨⟨0, ⟨⟨0⟩, ⟨7⟩, .video, false⟩⟩, none⟩] },
        { (Client.new ⟨1⟩ .new .registry).1 with
          rtc := { Rtc.new with writers := [⟨⟨3⟩, [(⟨0, true⟩, ⟨96⟩)], true⟩] }
          tracksOut := [⟨0, .opened ⟨3⟩⟩] }]
    bandwidth := (new 0 : Registry PeerDetector).bandwidth.recordNativeEstimate ⟨1⟩ (.num 400000)
    toPropagate :=
      [.mediaData ⟨0⟩
          (.fromStr0m ⟨⟨7⟩, ⟨96⟩, none, [], 0, true, ⟨0, 90000⟩, ⟨0, true⟩, none, none⟩),
        .activeSpeakerChanged 0 1] }

/-- The same in another order and with a third client, who is short of bandwidth. -/
def threePeers : Registry PeerDetector :=
  { twoPeers with
    clients := twoPeers.clients.reverse ++ [(Client.new ⟨2⟩ .new .registry).1]
    bandwidth := twoPeers.bandwidth.recordNativeEstimate ⟨2⟩ (.num 5000) }

theorem twoPeers_isolated : (twoPeers.fanoutPending .full 5).clients[1]? =
    (threePeers.fanoutPending .full 5).clients[0]? :=
  fanoutPending_isolated .full 5 twoPeers threePeers (i := 1) (j := 0) rfl rfl rfl rfl rfl

/-- The packet is written and the election heard. -/
example : ((threePeers.fanoutPending .full 5).clients[0]?.map fun c =>
    (c.rtc.written.length, c.deliveredMedia, c.deliveredActiveSpeaker)) = some (1, 1, 1) := by
  decide +kernel

/-- The drain loop brings every client the control messages meant for it, each once and in the
order of the queue: the tracks of the others, the keyframe requests for its own tracks and the
elections of others. -/
theorem fanoutPending_control (r : Registry D) :
    (r.fanoutPending F now).clients.map (fun c =>
      (c.tracksOut, c.rtc.keyframeCalls, c.deliveredActiveSpeaker)) =
    r.clients.map fun c =>
      (c.tracksOut ++ r.toPropagate.filterMap (Propagated.announcesTo c),
        (r.toPropagate.filterMap (Propagated.requestsOf c now)).reverse ++ c.rtc.keyframeCalls,
        c.deliveredActiveSpeaker + r.toPropagate.countP (Propagated.electsOther c)) := by
  rw [fanoutPending_clients, List.map_map]
  apply List.map_congr_left
  intro c _
  obtain ⟨htracks, hcalls, hcount⟩ := foldl_control F now r.heap r.toPropagate r.bandwidth c
  simp only [Function.comp_apply, htracks, hcalls, hcount]

end Registry
end SfuKit
