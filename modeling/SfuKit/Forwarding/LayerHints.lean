import Mathlib.Data.List.MinMax
import SfuKit.Library.Streak
import SfuKit.Tracks.CrossAdvertisement

/-! # Publisher layer hints

A hint carries the highest layer that any subscriber of a publisher desires. Every call
computes the maxima afresh and enqueues all of them, whether or not they have changed.
-/
namespace SfuKit

open Library Streak

def Propagated.hintFor (id : ClientId) : Propagated → Option SfuRid
  | .publisherLayerHint publisher rid | .publisherLayerHintForUpstream publisher rid =>
    if publisher = id then some rid else none
  | _ => none

def hintsFor (id : ClientId) (q : List Propagated) : List SfuRid :=
  q.filterMap (Propagated.hintFor id)

structure LayerHint where
  publisher : ClientId
  maxRid : SfuRid
  forUpstream : Bool

def Propagated.layerHint : Propagated → Option LayerHint
  | .publisherLayerHint publisher rid => some ⟨publisher, rid, false⟩
  | .publisherLayerHintForUpstream publisher rid => some ⟨publisher, rid, true⟩
  | _ => none

/-- The client has an entry for a track of the publisher that is still live. -/
def Client.SubscribedTo (heap : List ArcTrack) (publisher : ClientId) (s : Client) : Prop :=
  ∃ o ∈ s.tracksOut, ∃ t, upgrade heap o.trackIn = some t ∧ t.origin = publisher

theorem eq_low_of_layerRank {r : SfuRid} (h : layerRank r = 0) : r = .low := by
  unfold layerRank at h
  split_ifs at h with hlow
  exact hlow

theorem filterMap_entries (table : AList fun _ : ClientId => SfuRid) (id : ClientId) :
    table.entries.filterMap (fun e => if e.1 = id then some e.2 else none) =
      (table.lookup id).toList := by
  obtain ⟨l, hl⟩ := table
  rw [AList.lookup]
  dsimp only
  induction l with
  | nil => rfl
  | cons e l ih =>
    obtain ⟨hnot, hrest⟩ := List.nodupKeys_cons.mp hl
    rw [List.filterMap_cons]
    by_cases he : e.1 = id
    · subst he
      have hnone : List.dlookup e.1 l = none := List.dlookup_eq_none.mpr hnot
      rw [if_pos rfl, ih hrest, hnone, List.dlookup_cons_eq]
      rfl
    · rw [if_neg he, ih hrest, List.dlookup_cons_ne _ _ (Ne.symm he)]

namespace Registry
variable {D : Type*} (r : Registry D)

/-- Every live subscription: the publisher, and the layer its subscriber desires. -/
def subscriptions : List (ClientId × SfuRid) :=
  r.clients.flatMap fun s => s.tracksOut.filterMap fun o =>
    (upgrade r.heap o.trackIn).map fun t => (t.origin, s.desiredLayer)

def desires (id : ClientId) : List SfuRid :=
  (r.subscriptions.filter fun x => x.1 = id).map Prod.snd

def maxDesired (id : ClientId) : Option SfuRid := (r.desires id).argmax layerRank

theorem maxPerPublisher_eq :
    r.maxPerPublisher = r.subscriptions.foldl (fun table x => raiseHint table x.1 x.2) ∅ := by
  unfold maxPerPublisher subscriptions
  rw [List.foldl_flatMap]
  congr 1
  funext table s
  rw [List.foldl_filterMap]
  congr 1
  funext table o
  cases upgrade r.heap o.trackIn <;> rfl

/-- The table of a call has the maximum of every publisher that has a subscriber. -/
theorem lookup_maxPerPublisher (id : ClientId) :
    r.maxPerPublisher.lookup id = r.maxDesired id := by
  rw [maxPerPublisher_eq, maxDesired, desires]
  induction r.subscriptions using List.reverseRecOn with
  | nil => rfl
  | append_singleton l x ih =>
    rw [List.foldl_append, List.foldl_cons, List.foldl_nil, List.filter_append, List.map_append]
    by_cases hx : x.1 = id
    · have hone : ([x].filter fun x => x.1 = id).map Prod.snd = [x.2] := by simp [hx]
      rw [hone, List.argmax_concat, ← ih, raiseHint, hx, AList.lookup_insert]
      generalize (l.foldl (fun table x => raiseHint table x.1 x.2) ∅).lookup id = entry
      cases entry with
      | none =>
        -- Without an entry the comparison is with `q`, which nothing ranks below.
        by_cases hlow : layerRank x.2 = 0
        · rw [eq_low_of_layerRank hlow]
          rfl
        · have hlt : layerRank SfuRid.low < layerRank x.2 := Nat.pos_of_ne_zero hlow
          simp [hlt]
      | some rid =>
        simp only [Option.getD_some]
        split_ifs <;> rfl
    · have hnone : [x].filter (fun x => x.1 = id) = [] := by simp [hx]
      rw [hnone, List.map_nil, List.append_nil, ← ih, raiseHint, AList.lookup_insert_ne]
      exact Ne.symm hx

theorem emitPublisherLayerHints_hints (id : ClientId) :
    hintsFor id (r.emitPublisherLayerHints.toPropagate.drop r.toPropagate.length) =
      (r.maxDesired id).toList := by
  rw [← lookup_maxPerPublisher, ← filterMap_entries, emitPublisherLayerHints, List.drop_left,
    hintsFor, List.filterMap_map]
  congr 1
  funext e
  simp only [Function.comp_apply]
  split_ifs with hrelay hid hid <;> simp [Propagated.hintFor, hid]

/-- The hints that one call enqueues. -/
def layerHints : List Propagated :=
  r.maxPerPublisher.entries.map fun e : Sigma fun _ : ClientId => SfuRid =>
    if r.clients.any fun c => c.id = e.1 ∧ c.isRelay then
      Propagated.publisherLayerHintForUpstream e.1 e.2
    else .publisherLayerHint e.1 e.2

theorem mem_desires {id : ClientId} {rid : SfuRid} : rid ∈ r.desires id ↔
    ∃ s ∈ r.clients, s.SubscribedTo r.heap id ∧ s.desiredLayer = rid := by
  unfold desires subscriptions Client.SubscribedTo
  simp only [List.mem_map, List.mem_filter, List.mem_flatMap, List.mem_filterMap,
    Option.map_eq_some_iff, decide_eq_true_eq, Prod.exists, Prod.mk.injEq]
  constructor
  · rintro ⟨publisher, _, ⟨⟨s, hs, o, ho, t, ht, rfl, rfl⟩, rfl⟩, rfl⟩
    exact ⟨s, hs, ⟨o, ho, t, ht, rfl⟩, rfl⟩
  · rintro ⟨s, hs, ⟨o, ho, t, ht, rfl⟩, rfl⟩
    exact ⟨t.origin, s.desiredLayer, ⟨⟨s, hs, o, ho, t, ht, rfl, rfl⟩, rfl⟩, rfl⟩

theorem layerHints_filterMap : r.layerHints.filterMap Propagated.layerHint =
    r.maxPerPublisher.entries.map fun e : Sigma fun _ : ClientId => SfuRid =>
      ⟨e.1, e.2, r.clients.any fun c => c.id = e.1 ∧ c.isRelay⟩ := by
  rw [layerHints, List.filterMap_map, ← List.filterMap_eq_map]
  congr 1
  funext e
  simp only [Function.comp_apply]
  split_ifs with hrelay
  · rw [hrelay]
    rfl
  · rw [eq_false_of_ne_true hrelay]
    rfl

theorem mem_layerHints {h : LayerHint} : h ∈ r.layerHints.filterMap Propagated.layerHint ↔
    r.maxDesired h.publisher = some h.maxRid ∧
      h.forUpstream = r.clients.any fun c => c.id = h.publisher ∧ c.isRelay := by
  rw [layerHints_filterMap, ← lookup_maxPerPublisher, ← Option.mem_def, AList.mem_lookup_iff,
    List.mem_map]
  constructor
  · rintro ⟨e, he, rfl⟩
    exact ⟨he, rfl⟩
  · rintro ⟨he, hrelay⟩
    exact ⟨⟨h.publisher, h.maxRid⟩, he, by rw [← hrelay]⟩

/-- One call enqueues hints and nothing else: at most one for each publisher, one exactly for the
publishers with a live subscriber, of the highest layer that any of these desires, and as the
variant for relays exactly if the publisher is registered as one. -/
theorem emitPublisherLayerHints_spec : ∃ hints,
    r.emitPublisherLayerHints = { r with toPropagate := r.toPropagate ++ hints } ∧
    (∀ e ∈ hints, e.layerHint.isSome) ∧
    ((hints.filterMap Propagated.layerHint).map LayerHint.publisher).Nodup ∧
    (∀ id, (∃ h ∈ hints.filterMap Propagated.layerHint, h.publisher = id) ↔
      ∃ s ∈ r.clients, s.SubscribedTo r.heap id) ∧
    ∀ h ∈ hints.filterMap Propagated.layerHint,
      (∀ s ∈ r.clients, s.SubscribedTo r.heap h.publisher →
        layerRank s.desiredLayer ≤ layerRank h.maxRid) ∧
      (∃ s ∈ r.clients, s.SubscribedTo r.heap h.publisher ∧ s.desiredLayer = h.maxRid) ∧
      (h.forUpstream = true ↔ ∃ c ∈ r.clients, c.id = h.publisher ∧ c.isRelay) := by
  refine ⟨r.layerHints, rfl, ?_, ?_, ?_, ?_⟩
  · intro e he
    obtain ⟨entry, -, rfl⟩ := List.mem_map.mp he
    split_ifs <;> rfl
  · rw [layerHints_filterMap, List.map_map]
    exact r.maxPerPublisher.keys_nodup
  · intro id
    constructor
    · rintro ⟨h, hh, rfl⟩
      have hmax := List.argmax_mem (r.mem_layerHints.mp hh).1
      obtain ⟨s, hs, hsub, -⟩ := r.mem_desires.mp hmax
      exact ⟨s, hs, hsub⟩
    · rintro ⟨s, hs, hsub⟩
      have hmem : s.desiredLayer ∈ r.desires id := r.mem_desires.mpr ⟨s, hs, hsub, rfl⟩
      obtain ⟨rid, hrid⟩ : ∃ rid, r.maxDesired id = some rid := by
        apply Option.ne_none_iff_exists'.mp
        intro hnone
        rw [List.argmax_eq_none.mp hnone] at hmem
        cases hmem
      let h : LayerHint := ⟨id, rid, r.clients.any fun c => c.id = id ∧ c.isRelay⟩
      have hh : h ∈ r.layerHints.filterMap Propagated.layerHint :=
        r.mem_layerHints.mpr ⟨hrid, rfl⟩
      exact ⟨h, hh, rfl⟩
  · intro h hh
    obtain ⟨hmax, hrelay⟩ := r.mem_layerHints.mp hh
    refine ⟨?_, r.mem_desires.mp (List.argmax_mem hmax), ?_⟩
    · intro s hs hsub
      exact List.le_of_mem_argmax (r.mem_desires.mpr ⟨s, hs, hsub, rfl⟩) hmax
    · rw [hrelay]
      simp

end Registry

/-- One call of `emit_publisher_layer_hints`, as publisher `id` sees it: the maximum its
subscribers desire, if it has any, and the hints the call enqueues for it. -/
structure HintCall where
  maximum : Option SfuRid
  hints : List SfuRid
deriving DecidableEq, Repr

namespace Process
variable {D : Type*} [ActiveSpeakerDetector D] (F : Features)

def hintCalls (id : ClientId) : Process D → List Op → List HintCall
  | _, [] => []
  | p, op :: ops =>
    let here : List HintCall := match op with
      | .emitPublisherLayerHints =>
        [⟨p.reg.maxDesired id, hintsFor id
          (p.reg.emitPublisherLayerHints.toPropagate.drop p.reg.toPropagate.length)⟩]
      | _ => []
    here ++ hintCalls id (p.step F op) ops

/-- A hint is enqueued only if the maximum differs from the last hint. -/
def OnChange (calls : List HintCall) : Prop :=
  Entrywise (fun pre x => x.hints ≠ [] →
    ∀ last ∈ (pre.flatMap (·.hints)).getLast?, x.maximum ≠ some last) calls

instance (calls : List HintCall) : Decidable (OnChange calls) :=
  inferInstanceAs (Decidable (Entrywise _ calls))

theorem hints_eq_maximum (id : ClientId) (p : Process D) (ops : List Op) :
    ∀ x ∈ hintCalls F id p ops, x.hints = x.maximum.toList := by
  induction ops generalizing p with
  | nil => simp [hintCalls]
  | cons op ops ih =>
    intro x hx
    rcases List.mem_append.mp hx with hx | hx
    · cases op with
      | emitPublisherLayerHints =>
        rw [List.mem_singleton.mp hx]
        exact p.reg.emitPublisherLayerHints_hints id
      | _ => cases hx
    · exact ih _ x hx

/-- Over any calls, publisher `id` gets hints on change only exactly if no two consecutive
calls that find it with subscribers find the same maximum. -/
theorem onChange_run_iff (id : ClientId) (p : Process D) (ops : List Op) :
    OnChange (hintCalls F id p ops) ↔
      ((hintCalls F id p ops).filterMap (·.maximum)).IsChain (· ≠ ·) := by
  have hcalls := hints_eq_maximum F id p ops
  generalize hintCalls F id p ops = calls at hcalls
  induction calls using List.reverseRecOn with
  | nil => simp [OnChange, entrywise_nil]
  | append_singleton l x ih =>
    rw [List.forall_mem_append, List.forall_mem_singleton] at hcalls
    obtain ⟨hl, hx⟩ := hcalls
    have hlog : l.flatMap (·.hints) = l.filterMap (·.maximum) := by
      rw [List.filterMap_eq_flatMap_toList]
      exact List.flatMap_congr hl
    rw [OnChange, entrywise_concat, hlog, List.filterMap_append, List.isChain_append]
    refine and_congr (ih hl) ?_
    cases hm : x.maximum with
    | none => simp [hx, hm]
    | some rid => simp [hx, hm, ne_comm]

/-- Client 1 is subscribed to client 0, and two calls in a row hint at the same layer. -/
theorem onChange_fails : ¬ OnChange (hintCalls .full ⟨0⟩ (start 0 : Process PeerDetector)
    [.clientNew .new .throwaway, .clientNew .new .throwaway, .insert ⟨0⟩ 0, .insert ⟨1⟩ 0,
      .pollAll 0 (openFirst ⟨0⟩), .fanoutPending 0, .emitPublisherLayerHints,
      .emitPublisherLayerHints]) := by
  decide

end Process
end SfuKit
