import SfuKit.Library.Announcement.Delivery

/-! # No announcement is lost or doubled

While nobody joins, an announcement that is heard is one that was under way. So a token keeps the
copies that it has, and one that is published since has a single copy for everybody else.
-/
namespace SfuKit.Library.Announcement

def Act.Closed : Act → Prop
  | .join _ => False
  | _ => True

theorem Act.Quiet.closed {a : Act} (ha : a.Quiet) : a.Closed := by
  cases a <;> trivial

namespace Room

/-- What `s` has of a token of `p`, against an earlier state of the room: one copy if the token is
new, and else as many as it had. -/
def Accounted (r₀ r : Room) (s p : Member) (t : ℕ) : Prop :=
  (r₀.nextToken ≤ t ∧ r.copies s t = 1) ∨
    ∃ s₀ ∈ r₀.members, ∃ p₀ ∈ r₀.members, s₀.name = s.name ∧ p₀.name = p.name ∧ t ∈ p₀.owned ∧
      r.copies s t = r₀.copies s₀ t

/-- Every token of every member is accounted for with every other member. -/
structure Conserves (r₀ r : Room) : Prop where
  nextToken_le : r₀.nextToken ≤ r.nextToken
  accounted : ∀ s ∈ r.members, ∀ p ∈ r.members, s.name ≠ p.name → ∀ t ∈ p.owned,
    r₀.Accounted r s p t

variable {r₀ r r' : Room}

theorem Accounted.congr {s p s' p' : Member} {t : ℕ} (h : r₀.Accounted r s p t)
    (hs : s.name = s'.name) (hp : p.name = p'.name) (hcopies : r'.copies s' t = r.copies s t) :
    r₀.Accounted r' s' p' t := by
  rw [Accounted, hcopies, ← hs, ← hp]
  exact h

theorem Conserves.refl (r : Room) : r.Conserves r where
  nextToken_le := le_rfl
  accounted s hs p hp _ _ ht := .inr ⟨s, hs, p, hp, rfl, rfl, ht, rfl⟩

/-- Members may go, as long as no announcement does. -/
theorem Conserves.of_subset (h : r₀.Conserves r) (hmembers : r'.members ⊆ r.members)
    (hpending : r'.pending = r.pending) (hnext : r.nextToken ≤ r'.nextToken) :
    r₀.Conserves r' where
  nextToken_le := h.nextToken_le.trans hnext
  accounted s hs p hp hne t ht := by
    apply (h.accounted s (hmembers hs) p (hmembers hp) hne t ht).congr rfl rfl
    rw [copies, copies, hpending]

theorem Conserves.publish (h : r₀.Conserves r) (hr : r.WellFormed) (i : ℕ) :
    r₀.Conserves (r.step (.publish i)) := by
  simp only [Room.step]
  cases hi : r.members[i]? with
  | none => exact h
  | some m =>
    constructor
    · exact h.nextToken_le.trans (Nat.le_succ _)
    · intro s hs p hp hne t ht
      obtain ⟨s₀, hs₀, hsn, hsk, -⟩ := mem_set_own hi hs
      obtain ⟨p₀, hp₀, hpn, -, hpo⟩ := mem_set_own hi hp
      have hcopies := hr.copies_publish hs₀ m.name t
      rw [← hsk] at hcopies
      by_cases hnew : t = r.nextToken
      · left
        rw [if_pos hnew] at hcopies
        exact ⟨hnew ▸ h.nextToken_le, hcopies⟩
      · rw [if_neg hnew] at hcopies
        have ht₀ : t ∈ p₀.owned := (hpo t ht).resolve_right hnew
        have hne₀ : s₀.name ≠ p₀.name := by rwa [← hsn, ← hpn]
        exact (h.accounted s₀ hs₀ p₀ hp₀ hne₀ t ht₀).congr hsn.symm hpn.symm hcopies

theorem Conserves.deliver (h : r₀.Conserves r) (hr : r.WellFormed) :
    r₀.Conserves (r.step .deliver) := by
  simp only [Room.step]
  cases hp : r.pending with
  | nil => exact h
  | cons e rest =>
    obtain ⟨owner, u⟩ := e
    constructor
    · exact h.nextToken_le
    · intro s hs p hp' hne t ht
      obtain ⟨s₀, hs₀, rfl⟩ := List.mem_map.mp hs
      obtain ⟨p₀, hp₀, rfl⟩ := List.mem_map.mp hp'
      rw [Member.hear_name, Member.hear_name] at hne
      rw [Member.hear_owned] at ht
      apply (h.accounted s₀ hs₀ p₀ hp₀ hne t ht).congr
      · exact (Member.hear_name ..).symm
      · exact (Member.hear_name ..).symm
      · have hmove := copies_deliver s₀ owner u t rest
        -- The owner misses its own announcement, which is not about a token of `p₀`.
        have hskip : ¬ (s₀.name = owner ∧ t = u) := by
          rintro ⟨hown, rfl⟩
          have hpown := hr.pending_owner (owner, t) (by rw [hp]; exact List.mem_cons_self) p₀ hp₀ ht
          exact hne (hown.trans hpown.symm)
        rw [if_neg hskip] at hmove
        simp only [copies, hp]
        omega

/-- A step in which nobody joins neither loses nor doubles an announcement. -/
theorem Conserves.step (h : r₀.Conserves r) (hr : r.WellFormed) {a : Act} (ha : a.Closed) :
    r₀.Conserves (r.step a) := by
  cases a with
  | arrive | depart => exact h.of_subset (List.Subset.refl _) rfl le_rfl
  | allocate => exact h.of_subset (List.Subset.refl _) rfl (Nat.le_succ _)
  | prepare j =>
    simp only [Room.step]
    split
    · exact h.of_subset (List.Subset.refl _) rfl (Nat.le_succ _)
    · exact h
  | leave stay => exact h.of_subset (leave_sublist r.members stay).subset rfl le_rfl
  | publish i => exact h.publish hr i
  | deliver => exact h.deliver hr
  | join => cases ha

theorem conserves_run (hr : r.WellFormed) {acts : List Act} (hacts : ∀ a ∈ acts, a.Closed) :
    r.Conserves (Run.run step r acts) := by
  have hstep : ∀ (s : Room) (a : Act), s.WellFormed ∧ r.Conserves s → a.Closed →
      (s.step a).WellFormed ∧ r.Conserves (s.step a) := fun s a h ha =>
    ⟨h.1.step a, h.2.step h.1 ha⟩
  exact (Run.invariant hstep ⟨hr, .refl r⟩ (Run.along_of_forall hacts r)).2

end Room
end SfuKit.Library.Announcement
