import SfuKit.Pacer.Debounce

/-! # The event stream as a log of the pacer

An observer that knows a subscriber by its `AudioOnlyMode` and `SuspendVideo` events
alone keeps up with the mode of its pacer, and never hears an event that tells it nothing.
-/
namespace SfuKit

open Library Streak

/-- What an observer makes of a subscriber's mode. -/
structure ObservedMode where
  audioOnly : Bool
  suspended : Bool
deriving DecidableEq, Repr

namespace ObservedMode

def initial : ObservedMode := ⟨false, false⟩

def observe (m : ObservedMode) : Propagated → ObservedMode
  | .audioOnlyMode _ audioOnly => { m with audioOnly }
  | .suspendVideo _ true => ⟨true, true⟩
  | .suspendVideo _ false => { m with suspended := false }
  | _ => m

end ObservedMode

open ObservedMode

def eventsOf (id : ClientId) (l : List Propagated) : List Propagated :=
  l.filter fun e => e.clientId = some id

/-- The mode an observer of the events arrives at. -/
def observed (l : List Propagated) : ObservedMode := l.foldl observe initial

/-- Every event changes what the observer believes. -/
def Informative (l : List Propagated) : Prop :=
  Entrywise (fun pre e => (observed pre).observe e ≠ observed pre) l

@[simp] theorem observed_concat (l : List Propagated) (e : Propagated) :
    observed (l ++ [e]) = (observed l).observe e := by
  simp [observed, List.foldl_append]

namespace SubscriberPacer

def mode (p : SubscriberPacer) : ObservedMode := ⟨p.audioOnly, p.suspended⟩

def Nested (p : SubscriberPacer) : Prop := p.suspended = true → p.audioOnly = true

/-- A reading emits an event exactly when it changes the mode, and the event tells the
observer the new one. -/
theorem update_event {p : SubscriberPacer} (h : p.Nested) (bps : ℕ) (id : ClientId) :
    (p.update bps).1.Nested ∧
    match (applyPacerAction (p.update bps).2 id).1 with
    | none => (p.update bps).1.mode = p.mode
    | some e => e.clientId = some id ∧ p.mode.observe e = (p.update bps).1.mode ∧
        (p.update bps).1.mode ≠ p.mode := by
  rcases update_cases p bps with ⟨hs, -, hu⟩ | ⟨-, -, hu⟩ | ⟨hs, -, -, hu⟩ | ⟨-, -, -, hu⟩ |
    ⟨hs, -, ha, -, hu⟩ | ⟨-, -, -, -, hu⟩ | ⟨hs, -, ha, -, hu⟩ | ⟨-, -, -, -, hu⟩ <;> rw [hu]
  · -- Restored to audio-only: the observer knows that suspension meant audio-only.
    simp [Nested, mode, applyPacerAction, observe, Propagated.clientId, hs, h hs]
  · exact ⟨h, rfl⟩
  · simp [Nested, mode, applyPacerAction, observe, Propagated.clientId, hs]
  · exact ⟨h, rfl⟩
  · simp [Nested, mode, applyPacerAction, observe, Propagated.clientId, hs, ha]
  · exact ⟨h, rfl⟩
  · simp [Nested, mode, applyPacerAction, observe, Propagated.clientId, hs, ha]
  · rcases updateLayer_cases { p with suspendStreak := 0 } bps with ⟨l, s, hl⟩ | ⟨s, hl⟩ <;> rw [hl]
    · exact ⟨h, rfl⟩
    · exact ⟨h, rfl⟩

end SubscriberPacer

def advanceEvents (id : ClientId) (l : List Advance) : List Propagated :=
  l.filterMap fun a => (applyPacerAction a.action id).1

@[simp] theorem advanceEvents_concat (id : ClientId) (l : List Advance) (a : Advance) :
    advanceEvents id (l ++ [a]) = advanceEvents id l ++ (applyPacerAction a.action id).1.toList := by
  rw [advanceEvents, List.filterMap_append]
  cases h : (applyPacerAction a.action id).1 <;> simp [h, advanceEvents]

theorem eventsOf_emitted_concat (id : ClientId) (h : List Obs) (o : Obs) :
    eventsOf id (emitted (h ++ [o])) =
      eventsOf id (emitted h) ++ eventsOf id o.emits.toList := by
  rw [emitted_append, eventsOf, List.filter_append]
  cases he : o.emits <;> simp [he, emitted, eventsOf]

theorem eventsOf_emitted (id : ClientId) (h : List Obs) :
    eventsOf id (emitted h) = advanceEvents id (advances id h) := by
  induction h using List.reverseRecOn with
  | nil => rfl
  | append_singleton h o ih =>
    rw [eventsOf_emitted_concat, advances_concat, ih]
    cases o with
    | advance peer now bps action signals =>
      by_cases hid : peer = id
      · subst hid
        rw [advanceOf_self, Option.toList_some, advanceEvents_concat]
        congr 1
        cases action <;> simp [Obs.emits, applyPacerAction, eventsOf, Propagated.clientId]
      · rw [advanceOf_ne hid, Option.toList_none, List.append_nil]
        cases action <;> simp [Obs.emits, applyPacerAction, eventsOf, Propagated.clientId, hid]
    | delivery | sample => simp [Obs.advanceOf, Obs.emits, eventsOf]

/-- The observer, the pacer and the forwarding filter of a client agree on the mode. -/
structure Agrees (c : Client) (l : List Advance) : Prop where
  observer : observed (advanceEvents c.id l) = c.pacer.mode
  filter : c.suspended = c.pacer.suspended
  nested : c.pacer.Nested

/-- Every event so far told the observers of its client something new. -/
def AllInformative (h : List Obs) : Prop := ∀ id, Informative (eventsOf id (emitted h))

theorem AllInformative.concat {h : List Obs} {o : Obs} (hh : AllInformative h)
    (ho : ∀ e ∈ o.emits, ∀ id, e.clientId = some id →
      (observed (eventsOf id (emitted h))).observe e ≠ observed (eventsOf id (emitted h))) :
    AllInformative (h ++ [o]) := by
  intro id
  rw [eventsOf_emitted_concat]
  cases he : o.emits with
  | none => simpa [eventsOf] using hh id
  | some e =>
    by_cases hid : e.clientId = some id
    · have hone : eventsOf id (some e).toList = [e] := by simp [eventsOf, hid]
      rw [hone, Informative, entrywise_concat]
      exact ⟨hh id, ho e he id hid⟩
    · have hnone : eventsOf id (some e).toList = [] := by simp [eventsOf, hid]
      rw [hnone, List.append_nil]
      exact hh id

theorem Agrees.advance {c : Client} {l : List Advance} (h : Agrees c l) (now : Instant) (bps : ℕ)
    (signals : Option PerSubscriber) :
    Agrees (driveReading (c.ticked now signals) now bps signals).client
      (l ++ [⟨now, bps, (c.pacer.update bps).2, signals⟩]) := by
  obtain ⟨_, _, hclient⟩ := driveReading_client (c.ticked now signals) now bps signals
  simp only [Client.ticked_id, Client.ticked_pacer, Client.ticked_suspended] at hclient
  obtain ⟨hnested, hevent⟩ := c.pacer.update_event h.nested bps c.id
  rw [hclient]
  refine ⟨?_, ?_, hnested⟩
  · dsimp only
    rw [advanceEvents_concat]
    cases he : (applyPacerAction (c.pacer.update bps).2 c.id).1 with
    | none =>
      rw [he] at hevent
      rw [Option.toList_none, List.append_nil, h.observer]
      exact hevent.symm
    | some e =>
      rw [he] at hevent
      rw [Option.toList_some, observed_concat, h.observer]
      exact hevent.2.1
  · dsimp only
    rw [h.filter]
    exact applyPacerAction_suspend c.pacer bps c.id

/-- Every run keeps observer, pacer and filter together, and every event informative. -/
theorem eventLog_invariant (F : Features) :
    PacerInvariant F (fun _ _ _ => True) (fun _ => True) Agrees AllInformative where
  entry := .of_true
  new id rtc metrics := ⟨rfl, rfl, fun h => h⟩
  frame l hs h := by
    refine ⟨?_, ?_, ?_⟩
    · rw [hs.id, hs.pacer]
      exact h.observer
    · rw [hs.suspended, hs.pacer]
      exact h.filter
    · rw [hs.pacer]
      exact h.nested
  advance c now bps signals l _ h := h.advance now bps signals
  log_nil id := entrywise_nil _
  log_advance c now bps signals h _ hQ hG := by
    refine hG.concat fun e he id hid => ?_
    have hevent := (c.pacer.update_event hQ.nested bps c.id).2
    have hemits : (applyPacerAction (c.pacer.update bps).2 c.id).1 = some e := he
    rw [hemits] at hevent
    obtain ⟨howner, hnew, hne⟩ := hevent
    obtain rfl : c.id = id := Option.some.inj (howner.symm.trans hid)
    rw [eventsOf_emitted, hQ.observer, hnew]
    exact hne
  log_delivery c heap origin data h _ _ hG := hG.concat fun e he => by cases he
  log_sample id arrival send h hG := hG.concat fun e he => by cases he

namespace Process
variable {D : Type*} [ActiveSpeakerDetector D] (F : Features)

/-- After any calls, the events about a subscriber replay to the mode of its pacer and to
its suspended flag, no event about anybody was redundant, the mode changes still queued
are the last ones emitted, in order, and a drive of the pacers queues what it logs. -/
theorem eventLog_run (now : Instant) (ops : List Op) :
    let p := run F (start now : Process D) ops
    (∀ c ∈ p.reg.clients,
      observed (eventsOf c.id (emitted p.reg.history)) = ⟨c.pacer.audioOnly, c.pacer.suspended⟩ ∧
        c.suspended = c.pacer.suspended) ∧
    (∀ id, Informative (eventsOf id (emitted p.reg.history))) ∧
    modeEvents p.reg.toPropagate <:+ emitted p.reg.history ∧
    (∀ origin t, p.reg.QueuesLogged (p.reg.updatePacerLayers origin t)) ∧
    ∀ i c t bps signals, p.reg.QueuesLogged (p.reg.driveAt i (driveReading c t bps signals)) := by
  intro p
  have hopens : ∀ op ∈ ops, Op.Opens (fun _ _ _ => True) op := fun op _ =>
    op.opens_of_forall fun _ _ _ => trivial
  have hpaced := paced_run (D := D) (eventLog_invariant F) now ops hopens
  refine ⟨fun c hc => ⟨?_, (hpaced.clients c hc).filter⟩, hpaced.log, hpaced.queued,
    p.reg.updatePacerLayers_queuesLogged, p.reg.driveAt_queuesLogged⟩
  rw [eventsOf_emitted]
  exact (hpaced.clients c hc).observer

/-- Two low readings: the observer sees one event and knows both flags. -/
example : observed (eventsOf ⟨0⟩ (emitted (run .full (start 0 : Process PeerDetector)
    [.clientNew .new .throwaway, .insert ⟨0⟩ 0, .recordNativeEstimate ⟨0⟩ (.num 5000),
      .updatePacerLayers ⟨1⟩ 0, .updatePacerLayers ⟨1⟩ 100000000]).reg.history)) = ⟨true, true⟩ := by
  decide +kernel

end Process

end SfuKit
