import SfuKit.Library.Run

/-! # Hysteresis ladders

A level that falls to what is asked for at once and rises to it only when a number of
consecutive inputs ask for more than it. The levels are any linear order.
-/
namespace SfuKit.Library

/-- The level, and how many inputs in a row have asked for more. -/
structure Ladder (α : Type*) where
  level : α
  streak : ℕ
deriving DecidableEq, Repr

namespace Ladder

variable {α : Type*} [LinearOrder α] (u : ℕ)

/-- One input: down at once, up at the end of a streak. -/
def step (s : Ladder α) (a : α) : Ladder α :=
  if a ≤ s.level then ⟨a, 0⟩
  else if u ≤ s.streak + 1 then ⟨a, 0⟩
  else ⟨s.level, s.streak + 1⟩

theorem step_of_le {s : Ladder α} {a : α} (h : a ≤ s.level) : step u s a = ⟨a, 0⟩ := by
  rw [step, if_pos h]

variable {u}

theorem step_of_completes {s : Ladder α} {a : α} (h : u ≤ s.streak + 1) :
    step u s a = ⟨a, 0⟩ := by
  rw [step, if_pos h]
  exact ite_self _

theorem step_of_counts {s : Ladder α} {a : α} (h : s.level < a) (hu : s.streak + 1 < u) :
    step u s a = ⟨s.level, s.streak + 1⟩ := by
  rw [step, if_neg (not_le.mpr h), if_neg (not_le.mpr hu)]

/-- An input either sets the level or adds to the streak of one that asks for more. -/
theorem step_cases (u : ℕ) (s : Ladder α) (a : α) :
    ((a ≤ s.level ∨ u ≤ s.streak + 1) ∧ step u s a = ⟨a, 0⟩) ∨
      (s.level < a ∧ s.streak + 1 < u ∧ step u s a = ⟨s.level, s.streak + 1⟩) := by
  by_cases hle : a ≤ s.level
  · exact .inl ⟨.inl hle, step_of_le u hle⟩
  · by_cases hu : u ≤ s.streak + 1
    · exact .inl ⟨.inr hu, step_of_completes hu⟩
    · have hlt := not_le.mp hle
      exact .inr ⟨hlt, not_le.mp hu, step_of_counts hlt (not_le.mp hu)⟩

/-- Lower, or as high with a streak that is no longer. -/
def Below (s t : Ladder α) : Prop := s.level < t.level ∨ (s.level = t.level ∧ s.streak ≤ t.streak)

theorem Below.level_le {s t : Ladder α} (h : Below s t) : s.level ≤ t.level :=
  h.elim le_of_lt fun h => h.1.le

theorem below_refl (s : Ladder α) : Below s s := .inr ⟨rfl, le_rfl⟩

/-- The lower ladder completes a streak with an input above the higher one, which is still
counting. -/
def Overtakes (u : ℕ) (s t : Ladder α) (a : α) : Prop :=
  s.level < t.level ∧ t.level < a ∧ u ≤ s.streak + 1 ∧ t.streak + 1 < u

theorem Below.step {s t : Ladder α} {a b : α} (h : Below s t) (hab : a ≤ b)
    (hno : ¬ Overtakes u s t a) : Below (s.step u a) (t.step u b) := by
  rcases step_cases u s a with ⟨hset, hs⟩ | ⟨hlt, hcount, hs⟩
  · rcases step_cases u t b with ⟨-, ht⟩ | ⟨hltb, hcountb, ht⟩
    · -- Both are set: no streaks are left to compare.
      rw [hs, ht]
      exact hab.lt_or_eq.imp id fun heq => ⟨heq, le_rfl⟩
    · rw [hs, ht]
      have hle : a ≤ t.level := by
        rcases hset with hle | hu
        · exact hle.trans h.level_le
        · by_contra hlt
          rcases h with hlevel | ⟨-, hstreak⟩
          · exact hno ⟨hlevel, not_le.mp hlt, hu, hcountb⟩
          · omega
      exact hle.lt_or_eq.imp id fun heq => ⟨heq, Nat.zero_le _⟩
  · have hsb : s.level < b := hlt.trans_le hab
    rcases step_cases u t b with ⟨-, ht⟩ | ⟨hltb, hcountb, ht⟩
    · rw [hs, ht]
      exact .inl hsb
    · rw [hs, ht]
      exact h.imp id fun h => ⟨h.1, Nat.add_le_add_right h.2 1⟩

theorem Overtakes.level_lt {s t : Ladder α} {a b : α} (h : Overtakes u s t a) (hab : a ≤ b) :
    (t.step u b).level < (s.step u a).level := by
  obtain ⟨-, hlt, hs, ht⟩ := h
  rw [step_of_completes hs, step_of_counts (hlt.trans_le hab) ht]
  exact hlt

end Ladder
end SfuKit.Library
