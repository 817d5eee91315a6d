import SfuKit.Model.Bandwidth.Subscriber
import SfuKit.Model.LayerSelector

/-! # The minimum of the bandwidth ceilings

`combine_terms` folds the ceilings with a comparison that NaN never wins. The result is the
first minimum of the ceilings that are numbers, raised to zero, with the term it came from.
-/
namespace SfuKit

section Combine
variable {α : Type*}

/-- A term together with its ceiling, if there is one and it is a number. -/
def numberOf (term : BindingTerm) : Option (F64 α) → Option (BindingTerm × α)
  | some (.num a) => some (term, a)
  | _ => none

theorem numberOf_eq_some_iff {term t : BindingTerm} {x : Option (F64 α)} {a : α} :
    numberOf term x = some (t, a) ↔ term = t ∧ x = some (.num a) := by
  rcases x with - | - | b <;> simp [numberOf]

/-- The ceilings that are numbers, in the order of application. -/
def numbers (delay loss : F64 α) (native googcc hint : Option (F64 α)) :
    List (BindingTerm × α) :=
  (numberOf .delay (some delay)).toList ++ (numberOf .loss (some loss)).toList ++
    (numberOf .native native).toList ++ (numberOf .googCc googcc).toList ++
    (numberOf .clientHint hint).toList

theorem mem_numbers_hint {delay loss : F64 α} {native googcc hint : Option (F64 α)} {a : α} :
    (.clientHint, a) ∈ numbers delay loss native googcc hint ↔ hint = some (.num a) := by
  simp [numbers, numberOf_eq_some_iff]

variable [LinearOrder α]

/-- `m` is the lowest of the ceilings, and `term` the first that has it. -/
def FirstMin (l : List (BindingTerm × α)) (term : BindingTerm) (m : α) : Prop :=
  ∃ pre post, l = pre ++ (term, m) :: post ∧ (∀ x ∈ pre, m < x.2) ∧ ∀ x ∈ post, m ≤ x.2

theorem FirstMin.mem {l : List (BindingTerm × α)} {term : BindingTerm} {m : α}
    (h : FirstMin l term m) : (term, m) ∈ l := by
  obtain ⟨pre, post, rfl, -, -⟩ := h
  simp

theorem FirstMin.le {l : List (BindingTerm × α)} {term : BindingTerm} {m : α}
    (h : FirstMin l term m) : ∀ x ∈ l, m ≤ x.2 := by
  obtain ⟨pre, post, rfl, hpre, hpost⟩ := h
  intro x hx
  rcases List.mem_append.mp hx with hx | hx
  · exact (hpre x hx).le
  · rcases List.mem_cons.mp hx with rfl | hx
    · exact le_rfl
    · exact hpost x hx

/-- The running minimum as the first minimum of what it has seen. -/
def running (best : F64 α × BindingTerm) : Option (BindingTerm × α) := numberOf best.2 (some best.1)

/-- An update of the running minimum is one more entry for the first minimum. -/
theorem running_minUpdate {best : F64 α × BindingTerm} {seen : List (BindingTerm × α)}
    (h : seen.argmin Prod.snd = running best) (cand : F64 α) (term : BindingTerm) :
    (seen ++ (numberOf term (some cand)).toList).argmin Prod.snd =
      running (minUpdate best cand term) := by
  obtain ⟨x, bestTerm⟩ := best
  cases cand with
  | nan =>
    cases x <;> simpa [numberOf, running, minUpdate, F64.isNan, F64.lt] using h
  | num a =>
    rw [numberOf, Option.toList_some, List.argmin_concat, h]
    cases x with
    | nan => rfl
    | num b =>
      simp only [running, numberOf, minUpdate, F64.isNan, F64.lt, Bool.false_or, decide_eq_true_eq]
      split_ifs <;> rfl

theorem running_minUpdateOpt {best : F64 α × BindingTerm} {seen : List (BindingTerm × α)}
    (h : seen.argmin Prod.snd = running best) (cand : Option (F64 α)) (term : BindingTerm) :
    (seen ++ (numberOf term cand).toList).argmin Prod.snd =
      running (minUpdateOpt best cand term) := by
  cases cand with
  | none => simpa [numberOf, minUpdateOpt] using h
  | some c => exact running_minUpdate h c term

variable [Zero α] (delay loss : F64 α) (native googcc hint : Option (F64 α))

theorem combineTerms_eq : ∃ best : F64 α × BindingTerm,
    (numbers delay loss native googcc hint).argmin Prod.snd = running best ∧
      combineTerms delay loss native googcc hint = (best.1.maxNum 0, best.2) := by
  have hdelay : ((numberOf .delay (some delay)).toList : List (BindingTerm × α)).argmin Prod.snd =
      running (delay, .delay) := by
    cases delay <;> rfl
  have hloss := running_minUpdate hdelay loss .loss
  have hnative := running_minUpdateOpt hloss native .native
  have hgoogcc := running_minUpdateOpt hnative googcc .googCc
  exact ⟨_, running_minUpdateOpt hgoogcc hint .clientHint, rfl⟩

/-- What `combine_terms` returns: nothing but zero without a number, and otherwise the first
minimum. -/
theorem combineTerms_cases :
    (numbers delay loss native googcc hint = [] ∧
        (combineTerms delay loss native googcc hint).1 = 0) ∨
      ∃ m, FirstMin (numbers delay loss native googcc hint)
          (combineTerms delay loss native googcc hint).2 m ∧
        (combineTerms delay loss native googcc hint).1 = max 0 m := by
  obtain ⟨⟨x, term⟩, hbest, hcombine⟩ := combineTerms_eq delay loss native googcc hint
  rw [hcombine]
  cases x with
  | nan => exact .inl ⟨List.argmin_eq_none.mp hbest, rfl⟩
  | num m =>
    obtain ⟨pre, post, hsplit, hpre, hpost⟩ := exists_of_argmax (β := αᵒᵈ) Prod.snd hbest
    exact .inr ⟨m, ⟨pre, post, hsplit, hpre, hpost⟩, max_comm m 0⟩

theorem combineTerms_of_firstMin {x : BindingTerm × α}
    (hx : x ∈ numbers delay loss native googcc hint) :
    ∃ m ≤ x.2, (combineTerms delay loss native googcc hint).1 = max 0 m := by
  rcases combineTerms_cases delay loss native googcc hint with ⟨hnil, -⟩ | ⟨m, hm, hvalue⟩
  · rw [hnil] at hx
    cases hx
  · exact ⟨m, hm.le x hx, hvalue⟩

theorem combineTerms_le_of_subset {hint' : Option (F64 α)}
    (hsub : ∀ x ∈ numbers delay loss native googcc hint',
      x ∈ numbers delay loss native googcc hint)
    (hne : numbers delay loss native googcc hint' ≠ []) :
    (combineTerms delay loss native googcc hint).1 ≤
      (combineTerms delay loss native googcc hint').1 := by
  rcases combineTerms_cases delay loss native googcc hint' with ⟨hnil, -⟩ | ⟨m', hm', hvalue'⟩
  · exact absurd hnil hne
  · obtain ⟨m, hle, hvalue⟩ :=
      combineTerms_of_firstMin delay loss native googcc hint (hsub _ hm'.mem)
    rw [hvalue, hvalue']
    exact max_le_max_left 0 hle

end Combine

namespace PerSubscriber
variable (s : PerSubscriber)

/-- The ceilings of a subscriber with this delay estimate, loss estimate and hint. -/
def ceilingsWith (delay loss : F64 ℚ) (hint : Option ℕ) : List (BindingTerm × ℚ) :=
  numbers delay loss s.nativeEstimateBps (s.googcc.map fun g => .num (g.currentBps : ℚ))
    (hint.map fun b : ℕ => .num (b : ℚ))

def ceilings (now : Instant) : List (BindingTerm × ℚ) :=
  s.ceilingsWith (.num s.delay.bitrateBps) (.num s.loss.bitrateBps) (s.freshHint now)

theorem freshHint_eq_some_iff (now : Instant) (b : ℕ) : s.freshHint now = some b ↔
    ∃ h, s.clientHint = some h ∧ h.bps = b ∧ durationSince now h.receivedAt < fromSecs 5 := by
  unfold freshHint clientHintMaxAge
  cases s.clientHint with
  | none => simp
  | some h => simp [and_comm]

theorem freshHint_anti {now later : Instant} (h : now ≤ later) {b : ℕ}
    (hb : s.freshHint later = some b) : s.freshHint now = some b := by
  rw [freshHint_eq_some_iff] at hb ⊢
  obtain ⟨hint, hhint, hbps, hage⟩ := hb
  have hsub : durationSince now hint.receivedAt ≤ durationSince later hint.receivedAt :=
    Nat.sub_le_sub_right h _
  exact ⟨hint, hhint, hbps, hsub.trans_lt hage⟩

theorem mem_ceilings_delay (now : Instant) : (.delay, s.delay.bitrateBps) ∈ s.ceilings now :=
  List.mem_cons_self

section Rates
variable (delay loss : F64 ℚ)

theorem mem_ceilingsWith_hint (now : Instant) (b : ℕ) :
    (.clientHint, (b : ℚ)) ∈ s.ceilingsWith delay loss (s.freshHint now) ↔
      s.freshHint now = some b := by
  rw [ceilingsWith, mem_numbers_hint, Option.map_eq_some_iff]
  simp

theorem ceilingsWith_none_subset (hint : Option ℕ) :
    s.ceilingsWith delay loss none ⊆ s.ceilingsWith delay loss hint := by
  intro x hx
  have hnone : (numberOf .clientHint (none : Option (F64 ℚ))).toList = [] := rfl
  unfold ceilingsWith at hx ⊢
  rw [Option.map_none, numbers, hnone, List.append_nil] at hx
  exact List.mem_append_left _ hx

theorem ceilingsWith_anti {now later : Instant} (h : now ≤ later) :
    s.ceilingsWith delay loss (s.freshHint later) ⊆
      s.ceilingsWith delay loss (s.freshHint now) := by
  cases hb : s.freshHint later with
  | none => exact s.ceilingsWith_none_subset delay loss _
  | some b =>
    rw [s.freshHint_anti h hb]
    exact List.Subset.refl _

/-- If no other ceiling is a number, the hint is all that counts. -/
theorem combinedWithRates_of_empty (h : s.ceilingsWith delay loss none = []) (now : Instant) :
    (s.combinedWithRates delay loss now).1 = ((s.freshHint now).getD 0 : ℕ) := by
  have hnone : (numberOf .clientHint (none : Option (F64 ℚ))).toList = [] := rfl
  have hothers : s.ceilingsWith delay loss (s.freshHint now) =
      (numberOf .clientHint ((s.freshHint now).map fun b : ℕ => .num (b : ℚ))).toList := by
    unfold ceilingsWith at h ⊢
    rw [Option.map_none, numbers, hnone, List.append_nil] at h
    rw [numbers, h, List.nil_append]
  unfold ceilingsWith at hothers
  rcases combineTerms_cases delay loss s.nativeEstimateBps
    (s.googcc.map fun g => .num (g.currentBps : ℚ))
    ((s.freshHint now).map fun b : ℕ => .num (b : ℚ)) with ⟨hnil, hvalue⟩ | ⟨m, hm, hvalue⟩
  · rw [hothers] at hnil
    cases hb : s.freshHint now with
    | none =>
      rw [combinedWithRates, hvalue, Option.getD_none, Nat.cast_zero]
    | some b =>
      rw [hb] at hnil
      cases hnil
  · have hmem := hm.mem
    rw [hothers, Option.mem_toList, numberOf_eq_some_iff] at hmem
    obtain ⟨b, hb, hbm⟩ := Option.map_eq_some_iff.mp hmem.2
    obtain rfl := F64.num.inj hbm
    rw [combinedWithRates, hvalue, hb, Option.getD_some]
    exact max_eq_right (Nat.cast_nonneg b)

/-- Time alone never lowers the combination, unless the hint is the only ceiling. -/
theorem combinedWithRates_mono_iff :
    (Monotone fun now => (s.combinedWithRates delay loss now).1) ↔
      s.ceilingsWith delay loss none ≠ [] ∨ ∀ h ∈ s.clientHint, h.bps = 0 := by
  by_cases hothers : s.ceilingsWith delay loss none = []
  · have hvalue := s.combinedWithRates_of_empty delay loss hothers
    simp only [hvalue, hothers, ne_eq, not_true_eq_false, false_or]
    constructor
    · intro hmono h hh
      -- The hint counts when it comes in, and not five seconds later.
      have hnow : s.freshHint h.receivedAt = some h.bps := by
        rw [freshHint_eq_some_iff]
        exact ⟨h, hh, rfl, by simp [durationSince, fromSecs]⟩
      have hlater : s.freshHint (h.receivedAt + fromSecs 5) = none := by
        rw [Option.eq_none_iff_forall_ne_some]
        intro b hb
        obtain ⟨h', hh', -, hage⟩ := (s.freshHint_eq_some_iff _ b).mp hb
        obtain rfl := Option.some.inj (hh.symm.trans hh')
        simp [durationSince] at hage
      have hle := hmono (Nat.le_add_right h.receivedAt (fromSecs 5))
      simp only [hnow, hlater, Option.getD_some, Option.getD_none, Nat.cast_le] at hle
      exact Nat.le_zero.mp hle
    · intro hzero now later _
      have hnone : ∀ t, (s.freshHint t).getD 0 = 0 := by
        intro t
        cases hb : s.freshHint t with
        | none => rfl
        | some b =>
          obtain ⟨h, hh, hbps, -⟩ := (s.freshHint_eq_some_iff t b).mp hb
          exact hbps.symm.trans (hzero h hh)
      simp [hnone]
  · refine iff_of_true (fun now later h => ?_) (.inl hothers)
    apply combineTerms_le_of_subset
    · exact fun x hx => s.ceilingsWith_anti delay loss h hx
    · intro hnil
      have hsub := s.ceilingsWith_none_subset delay loss (s.freshHint later)
      exact hothers (List.subset_nil.mp (hnil ▸ hsub))

end Rates

theorem combinedBpsWithTerm_cases (now : Instant) :
    ∃ m, FirstMin (s.ceilings now) (s.combinedBpsWithTerm now).2 m ∧
      (s.combinedBpsWithTerm now).1 = max 0 m := by
  refine (combineTerms_cases _ _ _ _ _).resolve_left ?_
  rintro ⟨hnil, -⟩
  exact List.ne_nil_of_mem (s.mem_ceilings_delay now) hnil

theorem combinedBps_mono : Monotone s.combinedBps :=
  (s.combinedWithRates_mono_iff _ _).mpr (.inl (List.cons_ne_nil _ _))

/-- A subscriber that has a hint for 400 kbps, and no estimate from str0m or GoogCC. -/
def hinted : PerSubscriber := { new with clientHint := some ⟨400000, 0⟩ }

/-- With a delay and a loss estimator that were made with NaN, the combination falls from 400 kbps
to nothing when the hint runs out. -/
theorem combinedWithRates_mono_fails :
    (hinted.combinedWithRates .nan .nan 0).1 = 400000 ∧
      (hinted.combinedWithRates .nan .nan 5000000000).1 = 0 ∧
      ¬ Monotone fun now => (hinted.combinedWithRates .nan .nan now).1 := by
  have hothers : hinted.ceilingsWith .nan .nan none = [] := rfl
  refine ⟨?_, ?_, fun hmono => ?_⟩
  · rw [combinedWithRates_of_empty _ _ _ hothers]
    rfl
  · rw [combinedWithRates_of_empty _ _ _ hothers]
    rfl
  · have hzero := ((hinted.combinedWithRates_mono_iff _ _).mp hmono).resolve_left (absurd hothers)
    cases hzero ⟨400000, 0⟩ rfl

end PerSubscriber

/-- Over any numbers, NaN included, `combine_terms` returns the lowest of the ceilings, raised to
zero, with the first term that has it. The hint of a subscriber counts while it is younger than
five seconds; so, whatever the delay and the loss estimate, time alone never lowers the
combination exactly if some other ceiling is a number, or the hint is for nothing. -/
theorem combineTerms_spec :
    (∀ {α : Type} [LinearOrder α] [Zero α] (delay loss : F64 α)
        (native googcc hint : Option (F64 α)),
      let ceilings := numbers delay loss native googcc hint
      let r := combineTerms delay loss native googcc hint
      ((ceilings = [] ∧ r.1 = 0) ∨ ∃ m, FirstMin ceilings r.2 m ∧ r.1 = max 0 m) ∧
        ∀ x ∈ ceilings, 0 ≤ x.2 → r.1 ≤ x.2) ∧
    (∀ (s : PerSubscriber) (delay loss : F64 ℚ),
      (∀ now, let ceilings := s.ceilingsWith delay loss (s.freshHint now)
        let r := s.combinedWithRates delay loss now
        ((ceilings = [] ∧ r.1 = 0) ∨ ∃ m, FirstMin ceilings r.2 m ∧ r.1 = max 0 m) ∧
          ∀ b : ℕ, (.clientHint, (b : ℚ)) ∈ ceilings ↔
            ∃ h, s.clientHint = some h ∧ h.bps = b ∧
              durationSince now h.receivedAt < fromSecs 5) ∧
      ((Monotone fun now => (s.combinedWithRates delay loss now).1) ↔
        s.ceilingsWith delay loss none ≠ [] ∨ ∀ h ∈ s.clientHint, h.bps = 0)) ∧
    ∀ s : PerSubscriber, Monotone s.combinedBps := by
  refine ⟨fun delay loss native googcc hint => ⟨?_, fun x hx hnonneg => ?_⟩,
    fun s delay loss => ⟨fun now => ⟨?_, fun b => ?_⟩, ?_⟩, fun s => s.combinedBps_mono⟩
  · exact combineTerms_cases delay loss native googcc hint
  · obtain ⟨m, hm, hvalue⟩ := combineTerms_of_firstMin delay loss native googcc hint hx
    rw [hvalue]
    exact max_le hnonneg hm
  · exact combineTerms_cases _ _ _ _ _
  · rw [s.mem_ceilingsWith_hint, s.freshHint_eq_some_iff]
  · exact s.combinedWithRates_mono_iff delay loss

end SfuKit
