import SfuKit.Library.Announcement.Provenance
import SfuKit.Tracks.CrossAdvertisement
import SfuKit.Tracks.Evolution

/-! # Subscriptions to departed publishers

Entries of `tracks_out` are never removed. When a publisher is reaped its tracks
are dropped, and the entries that refer to them stay behind as weak references
that no longer upgrade.
-/
namespace SfuKit

open Library Library.Announcement

namespace Process
variable {D : Type*}

/-- Every entry of every `tracks_out` refers to a track of a connected client. -/
def NoStaleEntries (p : Process D) : Prop :=
  ∀ c ∈ p.reg.clients, ∀ o ∈ c.tracksOut, (upgrade p.reg.heap o.trackIn).isSome

instance (p : Process D) : Decidable p.NoStaleEntries :=
  inferInstanceAs (Decidable (∀ c ∈ p.reg.clients, ∀ o ∈ c.tracksOut,
    (upgrade p.reg.heap o.trackIn).isSome))

theorem exists_owner {p : Process D} {w : WeakTrack} {t : TrackIn}
    (h : upgrade p.reg.heap w = some t) : ∃ q ∈ p.reg.clients, ⟨w, t⟩ ∈ q.arcs :=
  List.mem_flatMap.mp (mem_of_upgrade h)

theorem mem_owned_of_arc {c : Client} {w : WeakTrack} {t : TrackIn} (h : ⟨w, t⟩ ∈ c.arcs) :
    w ∈ c.member.owned :=
  List.mem_map_of_mem (f := ArcTrack.addr) h

theorem upgrade_of_owned {p : Process D} {c : Client} (hc : c ∈ p.reg.clients) {w : WeakTrack}
    (h : w ∈ c.member.owned) : (upgrade p.reg.heap w).isSome := by
  rw [upgrade_isSome_iff]
  obtain ⟨a, ha, rfl⟩ := List.mem_map.mp h
  exact List.mem_map_of_mem (List.mem_flatMap.mpr ⟨c, hc, ha⟩)

/-- Whoever is here was here before, with the entries it has now less the latest, or has an
id that had not been drawn. -/
def KeepsEntries (p p' : Process D) : Prop :=
  p.idCounter ≤ p'.idCounter ∧ ∀ c' ∈ p'.clients, p.idCounter ≤ c'.id.raw ∨
    ∃ c ∈ p.clients, c.id = c'.id ∧ c.tracksOut <+: c'.tracksOut

theorem KeepsEntries.trans {p p' p'' : Process D} (h : p.KeepsEntries p')
    (h' : p'.KeepsEntries p'') : p.KeepsEntries p'' := by
  refine ⟨h.1.trans h'.1, fun c'' hc'' => ?_⟩
  rcases h'.2 c'' hc'' with hnew | ⟨c', hc', hid', hout'⟩
  · exact .inl (h.1.trans hnew)
  · rcases h.2 c' hc' with hnew | ⟨c, hc, hid, hout⟩
    · exact .inl (hid' ▸ hnew)
    · exact .inr ⟨c, hc, hid.trans hid', hout.trans hout'⟩

variable [ActiveSpeakerDetector D] (F : Features) (now : Instant)

variable (D) in
/-- At some time during the calls the client `n` was connected and owned the track at `w`. -/
def OwnedBefore (ops : List Op) (n : ℕ) (w : WeakTrack) : Prop :=
  ∃ pre, pre <+: ops ∧
    ∃ q ∈ (run F (start now : Process D) pre).reg.clients, q.id.raw = n ∧ w ∈ q.member.owned

/-- All knowledge in the registry goes back to a client that owned the track. -/
theorem traced_run (ops : List Op) :
    (run F (start now : Process D) ops).room.Traced (OwnedBefore D F now ops) := by
  induction ops using List.reverseRecOn with
  | nil => constructor <;> intro x hx <;> cases hx
  | append_singleton ops op ih =>
    have hwf := wellFormed_run (D := D) F now ops
    have hmono : ∀ n w, OwnedBefore D F now ops n w → OwnedBefore D F now (ops ++ [op]) n w :=
      fun n w ⟨pre, hpre, h⟩ => ⟨pre, hpre.trans (List.prefix_append _ _), h⟩
    have hold := ih.mono hmono
    have hrun : run F (start now : Process D) (ops ++ [op]) =
        (run F (start now : Process D) ops).step F op := Run.run_concat ..
    have hafter : ∀ m ∈ ((run F (start now : Process D) ops).step F op).room.members,
        ∀ t ∈ m.owned, OwnedBefore D F now (ops ++ [op]) m.name t := by
      intro m hm t ht
      obtain ⟨q, hq, rfl⟩ := List.mem_map.mp hm
      exact ⟨ops ++ [op], List.prefix_rfl, q, by rw [hrun]; exact hq, rfl, ht⟩
    rw [hrun]
    rcases step_room F (run F (start now : Process D) ops) op with
      ⟨_, _, j, _, -, -, hs⟩ | ⟨stay, -, hs⟩ | ⟨acts, hacts, hs⟩
    · rw [hs] at hafter ⊢
      exact hold.step hwf _ hafter
    · rw [hs] at hafter ⊢
      exact hold.step hwf _ hafter
    · rw [hs] at hafter ⊢
      exact hold.run hacts hwf hafter

/-- A track keeps its owner during the calls that follow. -/
theorem kept_run {n : ℕ} {w : WeakTrack} (p : Process D) (ops : List Op)
    (h : p.room.Kept n w) : (run F p ops).room.Kept n w := by
  have hstep : ∀ (p : Process D) (op : Op), p.room.Kept n w → (p.step F op).room.Kept n w := by
    intro p op hp
    rcases step_room F p op with ⟨_, _, j, _, -, -, hs⟩ | ⟨stay, -, hs⟩ | ⟨acts, -, hs⟩
    · rw [hs]; exact hp.step _
    · rw [hs]; exact hp.step _
    · rw [hs]; exact hp.run acts
  exact Run.invariant_all hstep ops h

theorem OwnedBefore.kept {ops : List Op} {n : ℕ} {w : WeakTrack} (h : OwnedBefore D F now ops n w) :
    (run F (start now : Process D) ops).room.Kept n w := by
  obtain ⟨pre, ⟨post, rfl⟩, q, hq, rfl, hw⟩ := h
  have hpre := (wellFormed_run F now pre).kept (mem_members _ hq) hw
  have hrun : run F (start now : Process D) (pre ++ post) = run F (run F (start now) pre) post :=
    Run.run_append ..
  rw [hrun]
  exact kept_run F _ post hpre

/-- No call takes an entry away. -/
theorem keepsEntries_step (p : Process D) (op : Op) : p.KeepsEntries (p.step F op) := by
  refine ⟨p.idCounter_le_step F op, fun c' hc' => ?_⟩
  rcases p.mem_clients_step F hc' with ⟨c, hc, he, -⟩ | ⟨c, hc, _, -, rfl⟩ | ⟨_, _, -, rfl⟩
  · obtain ⟨known, hknown, -⟩ := he.entries
    exact .inr ⟨c, hc, he.id.symm, known, hknown.symm⟩
  · exact .inr ⟨c, hc, rfl, List.prefix_rfl⟩
  · exact .inl le_rfl

theorem keepsEntries_run (p : Process D) (ops : List Op) : p.KeepsEntries (run F p ops) := by
  have hstep : ∀ (q : Process D) (op : Op), p.KeepsEntries q → p.KeepsEntries (q.step F op) :=
    fun q op h => h.trans (keepsEntries_step F q op)
  exact Run.invariant_all hstep ops ⟨le_rfl, fun c hc => .inr ⟨c, hc, rfl, List.prefix_rfl⟩⟩

/-- A client has every entry it had before, in the places where it had them. -/
theorem entries_kept {pre ops : List Op} (hpre : pre <+: ops) {c₀ c : Client}
    (hc₀ : c₀ ∈ (run F (start now : Process D) pre).clients)
    (hc : c ∈ (run F (start now : Process D) ops).clients) (hid : c.id = c₀.id) :
    c₀.tracksOut <+: c.tracksOut := by
  obtain ⟨post, rfl⟩ := hpre
  have hrun : run F (start now : Process D) (pre ++ post) = run F (run F (start now) pre) post :=
    Run.run_append ..
  rw [hrun] at hc
  have hwf := wellFormed_run (D := D) F now pre
  rcases (keepsEntries_run F _ post).2 c hc with hnew | ⟨d, hd, hdid, hout⟩
  · have hdrawn := lt_idCounter hwf hc₀
    rw [hid] at hnew
    omega
  · rwa [eq_of_id hwf hc₀ hd (hid.symm.trans hdid.symm)]

/-- After any calls, an entry of a client's `tracks_out` refers to a track of another
connected client, or it no longer upgrades and belonged to another client that was
connected once and is so no more. Whatever entries a client had at any time before, it has. -/
theorem subscription_owner (ops : List Op) :
    let p := run F (start now : Process D) ops
    (∀ c ∈ p.reg.clients, ∀ o ∈ c.tracksOut,
      (∃ q ∈ p.reg.clients, q.id ≠ c.id ∧
        ∃ t, upgrade p.reg.heap o.trackIn = some t ∧ ⟨o.trackIn, t⟩ ∈ q.arcs) ∨
      (upgrade p.reg.heap o.trackIn = none ∧ ∃ pre, pre <+: ops ∧
        ∃ q ∈ (run F (start now : Process D) pre).reg.clients, q.id ≠ c.id ∧
          o.trackIn ∈ q.arcs.map (·.addr) ∧ q.id ∉ p.reg.ids)) ∧
    ∀ pre, pre <+: ops → ∀ c₀ ∈ (run F (start now : Process D) pre).reg.clients,
      ∀ c ∈ p.reg.clients, c.id = c₀.id → c₀.tracksOut <+: c.tracksOut := by
  intro p
  refine ⟨fun c hc o ho => ?_, fun pre hpre c₀ hc₀ c hc hid =>
    entries_kept F now hpre (List.mem_append_left _ hc₀) (List.mem_append_left _ hc) hid⟩
  have hknown : o.trackIn ∈ c.member.known := List.mem_map_of_mem ho
  obtain ⟨n, hne, hpast⟩ := (traced_run F now ops).known c.member (mem_members _ hc) _ hknown
  have hkept : p.room.Kept n o.trackIn := hpast.kept
  cases hup : upgrade p.reg.heap o.trackIn with
  | some t =>
    left
    obtain ⟨q, hq, harc⟩ := exists_owner hup
    have hname : q.member.name = n :=
      hkept.only _ (List.mem_append_left _ (mem_members p hq)) (mem_owned_of_arc harc)
    exact ⟨q, hq, fun heq => hne (by rw [← hname, Client.member, heq]; rfl), t, rfl, harc⟩
  | none =>
    right
    obtain ⟨pre, hpre, q, hq, rfl, hw⟩ := hpast
    refine ⟨rfl, pre, hpre, q, hq, fun heq => hne (by rw [heq]; rfl), hw, fun hin => ?_⟩
    -- A connected owner would still own the track, and the entry would upgrade.
    obtain ⟨q', hq', hid⟩ := List.mem_map.mp hin
    have hstill := hkept.still q'.member (mem_members p hq') (congrArg ClientId.raw hid)
    have hsome := upgrade_of_owned hq' hstill
    rw [hup] at hsome
    cases hsome

/-- Client 0 opens a track, everybody is told, client 0 dies and is reaped, the queue is
drained: client 1 keeps the entry. -/
theorem noStaleEntries_fails :
    let p := run .full (start 0 : Process PeerDetector)
      [.clientNew .new .throwaway, .clientNew .new .throwaway, .insert ⟨0⟩ 0, .insert ⟨1⟩ 0,
        .pollAll 0 (openFirst ⟨0⟩), .fanoutPending 0, .connection ⟨0⟩ false [], .reapDead,
        .fanoutPending 0]
    p.reg.toPropagate = [] ∧ ¬ p.NoStaleEntries := by
  decide

end Process
end SfuKit
