import Mathlib.Tactic

/-! # Histories: trailing streaks, spacing and properties of every entry

How many of the last entries of a history satisfy a predicate without
interruption. A counter that is bumped on a good entry and cleared on a bad one
is a lower bound of this number, which is how debounce logic is specified; a latch is
set by such a streak and cleared by a single entry. Entries
that keep their distance span a time that grows with their number. A
property of every entry and of what came before it is checked entry by entry.
-/
namespace SfuKit.Library.Streak

variable {α : Type*} (p : α → Prop) [DecidablePred p]

/-- The length of the longest suffix whose entries all satisfy `p`. -/
def trailing (l : List α) : ℕ := (l.reverse.takeWhile (fun a => decide (p a))).length

@[simp] theorem trailing_nil : trailing p [] = 0 := rfl

theorem trailing_concat (l : List α) (a : α) :
    trailing p (l ++ [a]) = if p a then trailing p l + 1 else 0 := by
  unfold trailing
  rw [List.reverse_append]
  by_cases h : p a <;> simp [h]

/-- A streak of length `k` is exactly `k` last entries that all satisfy `p`. -/
theorem le_trailing_iff (l : List α) (k : ℕ) :
    k ≤ trailing p l ↔ k ≤ l.length ∧ ∀ a ∈ l.drop (l.length - k), p a := by
  induction l using List.reverseRecOn generalizing k with
  | nil => simp
  | append_singleton l a ih =>
    rw [trailing_concat]
    cases k with
    | zero => simp
    | succ k =>
      have hdrop : (l ++ [a]).drop ((l ++ [a]).length - (k + 1)) =
          l.drop (l.length - k) ++ [a] := by
        simp only [List.length_append, List.length_singleton, Nat.add_sub_add_right]
        exact List.drop_append_of_le_length (Nat.sub_le _ _)
      rw [hdrop]
      by_cases ha : p a
      · rw [if_pos ha, Nat.add_le_add_iff_right, ih]
        simp [ha, or_imp, forall_and]
      · rw [if_neg ha]
        simp [ha]

theorem trailing_mono {q : α → Prop} [DecidablePred q] (h : ∀ a, p a → q a) (l : List α) :
    trailing p l ≤ trailing q l := by
  rw [le_trailing_iff]
  obtain ⟨hlen, hall⟩ := (le_trailing_iff p l _).mp le_rfl
  exact ⟨hlen, fun a ha => h a (hall a ha)⟩

/-- Some streak of `k` entries with `p` is followed by entries with `q` only: what a latch
remembers that `k` entries in a row set and a single entry without `q` clears. -/
def Latched (q : α → Prop) (k : ℕ) (l : List α) : Prop :=
  ∃ j ≤ l.length, k ≤ trailing p (l.take j) ∧ ∀ a ∈ l.drop j, q a

theorem latched_nil {q : α → Prop} {k : ℕ} (hk : 0 < k) : ¬ Latched p q k [] := by
  rintro ⟨j, -, htrail, -⟩
  rw [List.take_nil, trailing_nil] at htrail
  omega

/-- The latch is set by its last entry, or was set before and is not cleared by it. -/
theorem latched_concat (q : α → Prop) (k : ℕ) (l : List α) (a : α) :
    Latched p q k (l ++ [a]) ↔ k ≤ trailing p (l ++ [a]) ∨ (Latched p q k l ∧ q a) := by
  constructor
  · rintro ⟨j, hj, htrail, hrest⟩
    rw [List.length_append, List.length_singleton] at hj
    by_cases hend : j = l.length + 1
    · left
      have htake : (l ++ [a]).take j = l ++ [a] := List.take_of_length_le (by simp [hend])
      rwa [htake] at htrail
    · right
      have hle : j ≤ l.length := by omega
      rw [List.take_append_of_le_length hle] at htrail
      rw [List.drop_append_of_le_length hle] at hrest
      refine ⟨⟨j, hle, htrail, fun b hb => ?_⟩, ?_⟩
      · exact hrest b (List.mem_append_left _ hb)
      · exact hrest a (List.mem_append_right _ (List.mem_singleton_self a))
  · rintro (htrail | ⟨⟨j, hle, htrail, hrest⟩, ha⟩)
    · exact ⟨(l ++ [a]).length, le_rfl, by rwa [List.take_length], by simp⟩
    · refine ⟨j, ?_, ?_, ?_⟩
      · rw [List.length_append]
        omega
      · rwa [List.take_append_of_le_length hle]
      · rw [List.drop_append_of_le_length hle]
        intro b hb
        rcases List.mem_append.mp hb with hb | hb
        · exact hrest b hb
        · rwa [List.mem_singleton.mp hb]

/-- Steps of at least `d` from entry to entry add up from the first entry to the last. -/
theorem le_getLast_of_isChain {f : α → ℕ} {d : ℕ} {l : List α}
    (h : l.IsChain fun a b => f a + d ≤ f b) :
    ∀ a ∈ l.head?, ∀ b ∈ l.getLast?, f a + (l.length - 1) * d ≤ f b := by
  induction l with
  | nil => simp
  | cons a l ih =>
    cases l with
    | nil => simp
    | cons b l =>
      rw [List.isChain_cons_cons] at h
      intro x hx y hy
      obtain rfl : a = x := by simpa using hx
      have hrest := ih h.2 b (by simp) y (by simpa [List.getLast?_cons_cons] using hy)
      have hlen : (a :: b :: l).length - 1 = (b :: l).length - 1 + 1 := by simp
      rw [hlen, Nat.succ_mul]
      omega

/-- Every entry satisfies `P` with the entries before it. -/
def Entrywise (P : List α → α → Prop) (l : List α) : Prop :=
  ∀ pre a post, l = pre ++ a :: post → P pre a

theorem entrywise_nil (P : List α → α → Prop) : Entrywise P [] := by
  intro pre a post h
  simp at h

theorem entrywise_concat (P : List α → α → Prop) (l : List α) (a : α) :
    Entrywise P (l ++ [a]) ↔ Entrywise P l ∧ P l a := by
  constructor
  · intro h
    refine ⟨fun pre b post hl => h pre b (post ++ [a]) ?_, h l a [] rfl⟩
    rw [hl, List.append_assoc, List.cons_append]
  · rintro ⟨hl, ha⟩ pre b post h
    rcases List.eq_nil_or_concat post with rfl | ⟨rest, c, rfl⟩
    · obtain ⟨rfl, hab⟩ := List.append_inj' h rfl
      obtain rfl := List.singleton_inj.mp hab
      exact ha
    · rw [List.concat_eq_append, ← List.cons_append, ← List.append_assoc] at h
      exact hl pre b rest (List.append_inj' h rfl).1

theorem entrywise_iff_getElem (P : List α → α → Prop) (l : List α) :
    Entrywise P l ↔ ∀ i, ∀ h : i < l.length, P (l.take i) l[i] := by
  constructor
  · intro h i hi
    refine h _ _ (l.drop (i + 1)) ?_
    rw [List.getElem_cons_drop, List.take_append_drop]
  · rintro h pre a post rfl
    have hi : pre.length < (pre ++ a :: post).length := by simp
    simpa using h pre.length hi

instance (P : List α → α → Prop) [∀ pre a, Decidable (P pre a)] (l : List α) :
    Decidable (Entrywise P l) :=
  decidable_of_iff _ (entrywise_iff_getElem P l).symm

end SfuKit.Library.Streak
