import SfuKit.Model.LayerSelector

/-! # Ties between layers

The selector ranks every RID other than `q` and `h` with `f`. Layers of one rank are told apart
by their place in the list only, and the list comes from iterating over a hash set.
-/
namespace SfuKit

/-- The RID is neither `q` nor `h`. -/
def SfuRid.Other (r : SfuRid) : Prop := r ≠ .low ∧ r ≠ .medium

instance (r : SfuRid) : Decidable r.Other := inferInstanceAs (Decidable (_ ∧ _))

theorem layerRank_eq_two_iff {r : SfuRid} : layerRank r = 2 ↔ r.Other := by
  unfold layerRank SfuRid.Other
  split_ifs <;> simp_all

theorem layerRank_lt_two_iff {r : SfuRid} : layerRank r < 2 ↔ ¬ r.Other := by
  unfold layerRank SfuRid.Other
  split_ifs <;> simp_all

theorem eq_of_layerRank {r s : SfuRid} (h : layerRank r = layerRank s) (hlt : layerRank s < 2) :
    r = s := by
  unfold layerRank at h hlt
  split_ifs at h hlt <;> simp_all

/-- The choice does not depend on the order of the list, and it is the desired layer whenever
that is active. -/
def Settled (desired : SfuRid) (active : List SfuRid) : Prop :=
  (∀ l, l.Perm active →
    BestFitSelector.select desired l = BestFitSelector.select desired active) ∧
  (desired ∈ active → BestFitSelector.select desired active = desired)

/-- No two active layers are neither `q` nor `h`, or the choice falls on one of `q` and `h`. -/
def NoTie (desired : SfuRid) (active : List SfuRid) : Prop :=
  (∀ r ∈ active, ∀ s ∈ active, r.Other → s.Other → r = s) ∨
    (¬ desired.Other ∧ ∃ r ∈ active, ¬ r.Other)

variable {desired : SfuRid} {active : List SfuRid} {r s : SfuRid}

theorem IsBestFit.layerRank_eq {A : Set SfuRid} (hr : IsBestFit desired A r)
    (hs : IsBestFit desired A s) : layerRank r = layerRank s := by
  obtain ⟨hrA, ⟨hrle, hrmax⟩ | ⟨hrabove, hrmin⟩⟩ := hr <;>
    obtain ⟨hsA, ⟨hsle, hsmax⟩ | ⟨hsabove, hsmin⟩⟩ := hs
  · exact le_antisymm (hsmax r hrA hrle) (hrmax s hsA hsle)
  · exact absurd hrle (not_le.mpr (hsabove r hrA))
  · exact absurd hsle (not_le.mpr (hrabove s hsA))
  · exact le_antisymm (hrmin s hsA) (hsmin r hrA)

theorem NoTie.eq_of_isBestFit (h : NoTie desired active)
    (hr : IsBestFit desired {s | s ∈ active} r) (hs : IsBestFit desired {s | s ∈ active} s) :
    r = s := by
  have hrank := hr.layerRank_eq hs
  by_cases hother : s.Other
  · have htwo := layerRank_eq_two_iff.mpr hother
    have hrother := layerRank_eq_two_iff.mp (hrank.trans htwo)
    rcases h with hone | ⟨hdesired, t, ht, htother⟩
    · exact hone r hr.1 s hs.1 hrother hother
    · -- A layer of the top rank fits best only if nothing else is within reach.
      have hlow := layerRank_lt_two_iff.mpr hdesired
      have htlow := layerRank_lt_two_iff.mpr htother
      obtain ⟨-, ⟨hle, -⟩ | ⟨-, hmin⟩⟩ := hs
      · omega
      · have hst := hmin t ht
        omega
  · exact eq_of_layerRank hrank (layerRank_lt_two_iff.mpr hother)

/-- A layer that fits best is chosen in some order of the list. -/
theorem exists_perm_select (h : IsBestFit desired {s | s ∈ active} r) :
    ∃ l, l.Perm active ∧ BestFitSelector.select desired l = r := by
  obtain ⟨hmem, hbest⟩ := h
  obtain ⟨pre, post, rfl⟩ := List.append_of_mem hmem
  have hothers : ∀ s ∈ pre ++ post, s ∈ pre ++ r :: post := by
    intro s hs
    rw [List.mem_append] at hs
    rw [List.mem_append, List.mem_cons]
    tauto
  rcases hbest with ⟨hle, hmax⟩ | ⟨habove, hmin⟩
  · refine ⟨pre ++ post ++ [r], ?_, ?_⟩
    · apply List.perm_append_comm.trans
      rw [List.singleton_append]
      exact List.perm_middle.symm
    · apply FitsBest.select_eq
      apply FitsBest.below ((pre ++ post).filter fun s => layerRank s ≤ layerRank desired) r []
      · rw [List.filter_append]
        simp [hle]
      · intro s hs
        obtain ⟨hs, hsle⟩ := List.mem_filter.mp hs
        exact hmax s (hothers s hs) (of_decide_eq_true hsle)
      · intro s hs
        cases hs
  · refine ⟨r :: (pre ++ post), List.perm_middle.symm, ?_⟩
    apply FitsBest.select_eq
    apply FitsBest.above [] r (pre ++ post) rfl
    · intro s hs
      rcases List.mem_cons.mp hs with rfl | hs
      · exact habove s hmem
      · exact habove s (hothers s hs)
    · intro s hs
      cases hs
    · exact fun s hs => hmin s (hothers s hs)

theorem select_perm_mem (h : active ≠ []) {l : List SfuRid} (hl : l.Perm active) :
    IsBestFit desired {s | s ∈ active} (BestFitSelector.select desired l) := by
  have hne : l ≠ [] := fun he => h (List.Perm.nil_eq (he ▸ hl)).symm
  have hset : {s | s ∈ l} = {s | s ∈ active} := Set.ext fun s => hl.mem_iff
  rw [← hset]
  exact isBestFit_select desired hne

theorem isBestFit_desired (h : desired ∈ active) : IsBestFit desired {s | s ∈ active} desired :=
  ⟨h, .inl ⟨le_rfl, fun _ _ hle => hle⟩⟩

theorem NoTie.settled (h : NoTie desired active) : Settled desired active := by
  constructor
  · intro l hl
    by_cases hne : active = []
    · subst hne
      rw [hl.eq_nil]
    · exact h.eq_of_isBestFit (select_perm_mem hne hl) (isBestFit_select desired hne)
  · intro hmem
    have hne : active ≠ [] := List.ne_nil_of_mem hmem
    exact h.eq_of_isBestFit (isBestFit_select desired hne) (isBestFit_desired hmem)

theorem Settled.eq_of_isBestFit (h : Settled desired active)
    (hr : IsBestFit desired {s | s ∈ active} r) (hs : IsBestFit desired {s | s ∈ active} s) :
    r = s := by
  obtain ⟨l, hl, rfl⟩ := exists_perm_select hr
  obtain ⟨m, hm, rfl⟩ := exists_perm_select hs
  rw [h.1 l hl, h.1 m hm]

/-- The top rank is chosen if it is desired, or if there is nothing else. -/
theorem isBestFit_of_other (hmem : r ∈ active) (hr : r.Other)
    (h : desired.Other ∨ ∀ t ∈ active, t.Other) : IsBestFit desired {s | s ∈ active} r := by
  have hrank := layerRank_eq_two_iff.mpr hr
  have hle : ∀ t, layerRank t ≤ 2 := by
    intro t
    unfold layerRank
    split_ifs <;> omega
  refine ⟨hmem, ?_⟩
  by_cases hdesired : desired.Other
  · have htwo := layerRank_eq_two_iff.mpr hdesired
    refine .inl ⟨by omega, fun t _ _ => ?_⟩
    rw [hrank]
    exact hle t
  · have hall := h.resolve_left hdesired
    have hlow := layerRank_lt_two_iff.mpr hdesired
    refine .inr ⟨fun t ht => ?_, fun t ht => ?_⟩
    · rw [layerRank_eq_two_iff.mpr (hall t ht)]
      exact hlow
    · rw [hrank, layerRank_eq_two_iff.mpr (hall t ht)]

/-- The choice is settled exactly when no two active layers tie for it. -/
theorem settled_iff (desired : SfuRid) (active : List SfuRid) :
    Settled desired active ↔ NoTie desired active := by
  refine ⟨fun h => ?_, NoTie.settled⟩
  by_contra htie
  rw [NoTie, not_or] at htie
  obtain ⟨hmany, hreach⟩ := htie
  have hcause : desired.Other ∨ ∀ t ∈ active, t.Other := by
    by_contra hnone
    rw [not_or] at hnone
    push Not at hnone
    exact hreach hnone
  push Not at hmany
  obtain ⟨r, hr, s, hs, hrother, hsother, hne⟩ := hmany
  exact hne (h.eq_of_isBestFit (isBestFit_of_other hr hrother hcause)
    (isBestFit_of_other hs hsother hcause))

/-- With `f` desired and active, another layer that comes after it is forwarded instead. -/
theorem settled_fails :
    ¬ Settled .high [.high, ⟨['r', '1']⟩] ∧
      BestFitSelector.select .high [.high, ⟨['r', '1']⟩] = ⟨['r', '1']⟩ ∧
      BestFitSelector.select .high [⟨['r', '1']⟩, .high] = .high := by
  refine ⟨fun h => ?_, by decide, by decide⟩
  have hexact := h.2 List.mem_cons_self
  revert hexact
  decide

end SfuKit
