import SfuKit.Library.Announcement.Conservation
import SfuKit.Server.Media

/-! # Subscriptions while the loop runs

Nobody joins a room that is served, so the loop neither loses nor doubles an announcement. A
client is subscribed once to every track that another opens under the loop; to one that was there
it stays subscribed as often as it was, and as often as the announcements found in the queue.
-/
namespace SfuKit

open Library Library.Announcement

def announced (q : List Propagated) (w : WeakTrack) : ℕ :=
  q.countP fun
    | .trackOpen _ track => track = w
    | _ => false

theorem count_announcements (q : List Propagated) (w : WeakTrack) :
    ((announcements q).map (·.2)).count w = announced q w := by
  induction q with
  | nil => rfl
  | cons e q ih =>
    have hcons : announcements (e :: q) = announcements [e] ++ announcements q :=
      announcements_append [e] q
    rw [hcons, List.map_append, List.count_append, ih]
    cases e with
    | trackOpen origin track =>
      simp [announcements, Propagated.announcement, announced, List.countP_cons,
        List.count_singleton, Nat.add_comm]
    | _ => exact (Nat.zero_add _).trans (List.countP_cons_of_neg Bool.false_ne_true).symm

/-- While a room is served nobody is inserted. -/
theorem Op.inserted_of_isServing {op : Op} (h : op.isServing = true) : op.inserted = none := by
  cases op <;> first | rfl | cases h

namespace Process
variable {D : Type*}

theorem copies_member (p : Process D) (c : Client) (w : WeakTrack) :
    p.room.copies c.member w = subscriptions c w + announced p.reg.toPropagate w := by
  rw [Room.copies, count_known, ← count_announcements]
  rfl

/-- Calls that insert nobody are steps of a room that nobody joins. -/
theorem run_closed [ActiveSpeakerDetector D] (F : Features) (p : Process D) {ops : List Op}
    (h : ∀ op ∈ ops, op.inserted = none) : ∃ acts, (∀ a ∈ acts, Act.Closed a) ∧
      (run F p ops).room = Run.run Room.step p.room acts := by
  induction ops generalizing p with
  | nil => exact ⟨[], by simp, rfl⟩
  | cons op ops ih =>
    obtain ⟨hop, hrest⟩ := List.forall_mem_cons.mp h
    have hone : ∃ acts, (∀ a ∈ acts, Act.Closed a) ∧
        (p.step F op).room = Run.run Room.step p.room acts := by
      rcases step_room F p op with ⟨_, _, _, _, rfl, -, -⟩ | ⟨stay, -, hs⟩ | ⟨acts, hacts, hs⟩
      · cases hop
      · exact ⟨[.leave stay], by simp [Act.Closed], hs⟩
      · exact ⟨acts, fun a ha => (hacts a ha).closed, hs⟩
    obtain ⟨acts, hacts, hs⟩ := hone
    obtain ⟨acts', hacts', hs'⟩ := ih (p.step F op) hrest
    refine ⟨acts ++ acts', List.forall_mem_append.mpr ⟨hacts, hacts'⟩, ?_⟩
    rw [Run.run_append, ← hs]
    exact hs'

end Process

namespace Server
variable {D : Type*} [ActiveSpeakerDetector D] (F : Features) (localAddr : SocketAddr)

theorem announced_iterate (s : Server D) (x : Pass) (hrun : s.running = true) (w : WeakTrack) :
    announced (s.iterate F localAddr x).process.reg.toPropagate w = 0 := by
  apply List.countP_eq_zero.mpr
  intro e he
  have hnotice := iterate_notices F localAddr s x hrun e he
  cases e with
  | trackOpen => cases hnotice
  | _ => exact Bool.false_ne_true

/-- Between two other clients, the loop subscribes the one once to each track that the other has
opened since the loop was entered. To a track that was there it is subscribed as often as it was,
and once more for each announcement of it that was queued; nothing is lost and nothing doubled. -/
theorem subscriptions_run (now : Instant) (ops : List Op) (out : Outboxes) (x : Pass)
    (l : List Pass) :
    let p : Process D := Process.run F (Process.start now) ops
    let p' := (Run.run (iterate F localAddr) (serveSocket p out) (x :: l)).process
    ∀ c ∈ p'.reg.clients, ∀ q ∈ p'.reg.clients, c.id ≠ q.id → ∀ t ∈ q.tracksIn,
      (p.nextAlloc ≤ t.id.downgrade ∧ Process.subscriptions c t.id.downgrade = 1) ∨
      ∃ c₀ ∈ p.reg.clients, ∃ q₀ ∈ p.reg.clients, c₀.id = c.id ∧ q₀.id = q.id ∧
        (∃ t₀ ∈ q₀.tracksIn, t₀.id.downgrade = t.id.downgrade) ∧
        Process.subscriptions c t.id.downgrade =
          Process.subscriptions c₀ t.id.downgrade + announced p.reg.toPropagate t.id.downgrade := by
  intro p p' c hc q hq hne t ht
  have hr : p.room.WellFormed := Process.wellFormed_run F now ops
  have hserving : ∀ op ∈ runCalls F localAddr (serveSocket p out) (x :: l), op.inserted = none :=
    fun op hop => Op.inserted_of_isServing
      (Run.forall_emissions (fun s x => calls_isServing F localAddr s x) _ hop)
  have hrun : p' = Process.run F p (runCalls F localAddr (serveSocket p out) (x :: l)) :=
    run_process F localAddr (serveSocket p out) (x :: l) hr
  obtain ⟨acts, hacts, hroom⟩ := Process.run_closed F p hserving
  have hconserves : p.room.Conserves p'.room := by
    rw [hrun, hroom]
    exact Room.conserves_run hr hacts
  -- The last running iteration has emptied the queue, and a loop that has stopped leaves it.
  have hqueue : announced p'.reg.toPropagate t.id.downgrade = 0 := by
    have hkeep : ∀ (s : Server D) (x : Pass),
        announced s.process.reg.toPropagate t.id.downgrade = 0 →
        announced (s.iterate F localAddr x).process.reg.toPropagate t.id.downgrade = 0 := by
      intro s x h
      cases hrunning : s.running with
      | true => exact announced_iterate F localAddr s x hrunning _
      | false =>
        rw [iterate_stopped F localAddr s x hrunning]
        exact h
    have hfirst := announced_iterate F localAddr (serveSocket p out) x rfl t.id.downgrade
    exact Run.invariant_all hkeep l hfirst
  have haccounted := hconserves.accounted c.member (p'.mem_members hc) q.member
    (p'.mem_members hq) (Process.name_ne_of_id_ne hne) t.id.downgrade (Process.mem_owned q ht)
  rw [Room.Accounted, p'.copies_member, hqueue, Nat.add_zero] at haccounted
  rcases haccounted with hnew | ⟨s₀, hs₀, m₀, hm₀, hs, hm, howned, hcopies⟩
  · exact .inl hnew
  · obtain ⟨c₀, hc₀, rfl⟩ := List.mem_map.mp hs₀
    obtain ⟨q₀, hq₀, rfl⟩ := List.mem_map.mp hm₀
    obtain ⟨a, ha, haddr⟩ := List.mem_map.mp howned
    obtain ⟨t₀, ht₀, rfl⟩ := List.mem_map.mp ha
    rw [p.copies_member] at hcopies
    exact .inr ⟨c₀, hc₀, q₀, hq₀, ClientId.ext hs, ClientId.ext hm, ⟨t₀, ht₀, haddr⟩, hcopies⟩

end Server
end SfuKit
