import SfuKit.Model.Ids
import Mathlib.Data.List.MinMax

/-! # Simulcast layer selection

`BestFitSelector` picks the RID to forward: the best active one not above the
desired layer, else the lowest active one. `IsBestFit` says so of a set of layers,
`FitsBest` of a list, where the order breaks ties.
-/
namespace SfuKit

/-- The `rank` of the selector and of the publisher hints: whatever is neither
`q` nor `h` ranks with `f`. -/
def layerRank (r : SfuRid) : ℕ := if r = .low then 0 else if r = .medium then 1 else 2

namespace BestFitSelector

/-- `BestFitSelector::select`. `max_by_key` takes the last of the maxima and
`min_by_key` the first of the minima. -/
def select (desired : SfuRid) (active : List SfuRid) : SfuRid :=
  if active = [] then desired
  else
    let below := active.filter fun r => layerRank r ≤ layerRank desired
    (below.reverse.argmax layerRank).getD ((active.argmin layerRank).getD desired)

end BestFitSelector

/-- `r` is a best-fit layer for `desired` within the set `A`: of the highest rank
not above the desired one, or of the lowest rank if every layer is above. -/
def IsBestFit (desired : SfuRid) (A : Set SfuRid) (r : SfuRid) : Prop :=
  r ∈ A ∧
    ((layerRank r ≤ layerRank desired ∧
        ∀ s ∈ A, layerRank s ≤ layerRank desired → layerRank s ≤ layerRank r) ∨
      ((∀ s ∈ A, layerRank desired < layerRank s) ∧ ∀ s ∈ A, layerRank r ≤ layerRank s))

/-- The layer of a list that fits best, of several the one the iterators of the source
settle on: the last of the maxima, the first of the minima. An empty list stands for
unknown layers. -/
inductive FitsBest (desired : SfuRid) (active : List SfuRid) : SfuRid → Prop
  | unknown (h : active = []) : FitsBest desired active desired
  | below (pre r post)
      (h : (active.filter fun s => layerRank s ≤ layerRank desired) = pre ++ r :: post)
      (hpre : ∀ s ∈ pre, layerRank s ≤ layerRank r)
      (hpost : ∀ s ∈ post, layerRank s < layerRank r) : FitsBest desired active r
  | above (pre r post) (h : active = pre ++ r :: post)
      (habove : ∀ s ∈ active, layerRank desired < layerRank s)
      (hpre : ∀ s ∈ pre, layerRank r < layerRank s)
      (hpost : ∀ s ∈ post, layerRank r ≤ layerRank s) : FitsBest desired active r

section Argmax
variable {α β : Type*} [LinearOrder β] [DecidableEq α] (f : α → β)

theorem argmax_append_cons {pre post : List α} {a : α} (hpre : ∀ b ∈ pre, f b < f a)
    (hpost : ∀ b ∈ post, f b ≤ f a) : (pre ++ a :: post).argmax f = some a := by
  have hnot : a ∉ pre := fun h => lt_irrefl _ (hpre a h)
  refine List.argmax_eq_some_iff.mpr ⟨by simp, fun b hb => ?_, fun b hb hle => ?_⟩
  · rcases List.mem_append.mp hb with h | h
    · exact (hpre b h).le
    · exact (List.mem_cons.mp h).elim (fun h => h ▸ le_rfl) (hpost b)
  · have hbnot : b ∉ pre := fun h => absurd hle (not_le.mpr (hpre b h))
    rw [List.idxOf_append_of_notMem hnot, List.idxOf_append_of_notMem hbnot,
      List.idxOf_cons_self]
    omega

theorem exists_of_argmax {l : List α} {a : α} (h : l.argmax f = some a) :
    ∃ pre post, l = pre ++ a :: post ∧ (∀ b ∈ pre, f b < f a) ∧ ∀ b ∈ post, f b ≤ f a := by
  obtain ⟨hmem, hmax, hfirst⟩ := List.argmax_eq_some_iff.mp h
  obtain ⟨pre, post, rfl, hnot⟩ := List.eq_append_cons_of_mem hmem
  refine ⟨pre, post, rfl, fun b hb => ?_, fun b hb => hmax b (by simp [hb])⟩
  by_contra hle
  have hidx := hfirst b (List.mem_append_left _ hb) (not_lt.mp hle)
  rw [List.idxOf_append_of_notMem hnot, List.idxOf_cons_self,
    List.idxOf_append_of_mem hb] at hidx
  have hlt := List.idxOf_lt_length_of_mem hb
  omega

end Argmax

theorem FitsBest.select_eq {desired : SfuRid} {active : List SfuRid} {r : SfuRid}
    (h : FitsBest desired active r) : BestFitSelector.select desired active = r := by
  unfold BestFitSelector.select
  cases h with
  | unknown h => rw [if_pos h]
  | below pre r post h hpre hpost =>
    have hne : active ≠ [] := by
      rintro rfl
      simp at h
    have hmax : (post.reverse ++ r :: pre.reverse).argmax layerRank = some r :=
      argmax_append_cons _ (by simpa using hpost) (by simpa using hpre)
    rw [if_neg hne, h]
    simp [hmax]
  | above pre r post h habove hpre hpost =>
    have hne : active ≠ [] := by simp [h]
    have hnone : (active.filter fun s => layerRank s ≤ layerRank desired) = [] :=
      List.filter_eq_nil_iff.mpr fun s hs => by simpa using habove s hs
    have hmin : active.argmin layerRank = some r := by
      rw [h]
      exact argmax_append_cons (β := ℕᵒᵈ) layerRank hpre hpost
    simp [hne, hnone, hmin]

theorem FitsBest.isBestFit {desired : SfuRid} {active : List SfuRid} {r : SfuRid}
    (h : FitsBest desired active r) (hne : active ≠ []) :
    IsBestFit desired {s | s ∈ active} r := by
  cases h with
  | unknown h => exact absurd h hne
  | below pre r post h hpre hpost =>
    have hmem : ∀ s, s ∈ active ∧ layerRank s ≤ layerRank desired ↔ s ∈ pre ++ r :: post := by
      intro s
      simp [← h, List.mem_filter]
    obtain ⟨hr, hle⟩ := (hmem r).mpr (by simp)
    refine ⟨hr, .inl ⟨hle, fun s hs hsle => ?_⟩⟩
    have hsmem := (hmem s).mp ⟨hs, hsle⟩
    rw [List.mem_append, List.mem_cons] at hsmem
    rcases hsmem with hs | rfl | hs
    · exact hpre s hs
    · exact le_rfl
    · exact (hpost s hs).le
  | above pre r post h habove hpre hpost =>
    refine ⟨by simp [h], .inr ⟨habove, fun s hs => ?_⟩⟩
    rw [Set.mem_ofPred_eq, h, List.mem_append, List.mem_cons] at hs
    rcases hs with hs | rfl | hs
    · exact (hpre s hs).le
    · exact le_rfl
    · exact hpost s hs

theorem exists_fitsBest (desired : SfuRid) (active : List SfuRid) :
    ∃ r, FitsBest desired active r := by
  by_cases hne : active = []
  · exact ⟨desired, .unknown hne⟩
  cases hb : (active.filter fun s => layerRank s ≤ layerRank desired).reverse.argmax layerRank with
  | some r =>
    obtain ⟨pre, post, h, hpre, hpost⟩ := exists_of_argmax _ hb
    refine ⟨r, .below post.reverse r pre.reverse ?_ (by simpa using hpost) (by simpa using hpre)⟩
    rw [← List.reverse_inj, h]
    simp
  | none =>
    rw [List.argmax_eq_none, List.reverse_eq_nil_iff, List.filter_eq_nil_iff] at hb
    cases hm : active.argmin layerRank with
    | none => exact absurd (List.argmin_eq_none.mp hm) hne
    | some r =>
      obtain ⟨pre, post, h, hpre, hpost⟩ := exists_of_argmax (β := ℕᵒᵈ) layerRank hm
      exact ⟨r, .above pre r post h (fun s hs => by simpa using hb s hs) hpre hpost⟩

/-- The selector computes the layer that fits best. -/
theorem fitsBest_iff_select {desired : SfuRid} {active : List SfuRid} {r : SfuRid} :
    FitsBest desired active r ↔ BestFitSelector.select desired active = r := by
  refine ⟨FitsBest.select_eq, ?_⟩
  rintro rfl
  obtain ⟨r, hr⟩ := exists_fitsBest desired active
  rwa [hr.select_eq]

/-- The selector's choice among some layers is a best fit. -/
theorem isBestFit_select (desired : SfuRid) {active : List SfuRid} (h : active ≠ []) :
    IsBestFit desired {s | s ∈ active} (BestFitSelector.select desired active) :=
  (fitsBest_iff_select.mpr rfl).isBestFit h

/-- The selector returns the desired layer if nothing is active, and otherwise an active one: of
the highest rank up to the desired one if there is such a layer, of the lowest rank if not. -/
theorem BestFitSelector.select_optimal (desired : SfuRid) (active : List SfuRid) :
    let chosen := select desired active
    (active = [] → chosen = desired) ∧
    (active ≠ [] → chosen ∈ active ∧
      ((∃ s ∈ active, layerRank s ≤ layerRank desired) →
        layerRank chosen ≤ layerRank desired ∧
          ∀ s ∈ active, layerRank s ≤ layerRank desired → layerRank s ≤ layerRank chosen) ∧
      ((∀ s ∈ active, layerRank desired < layerRank s) →
        ∀ s ∈ active, layerRank chosen ≤ layerRank s)) := by
  intro chosen
  constructor
  · intro h
    exact (FitsBest.unknown h).select_eq
  · intro h
    obtain ⟨hmem, hfit⟩ : IsBestFit desired {s | s ∈ active} chosen := isBestFit_select desired h
    refine ⟨hmem, ?_, ?_⟩
    · rintro ⟨s, hs, hle⟩
      rcases hfit with hbelow | ⟨habove, -⟩
      · exact hbelow
      · exact absurd hle (not_le.mpr (habove s hs))
    · intro habove
      rcases hfit with ⟨hle, -⟩ | ⟨-, hmin⟩
      · exact absurd hle (not_le.mpr (habove chosen hmem))
      · exact hmin

end SfuKit
