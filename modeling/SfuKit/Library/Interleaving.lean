import Mathlib.Tactic

/-! # Calls with other steps in between

A state takes calls in a given order, and between them steps that a relation allows. Parties
with names each take the calls meant for them.
-/
namespace SfuKit.Library.Interleaving

variable {σ κ ν : Type*}

/-- The calls take one state to the other, in their order and with other steps in between. -/
inductive Takes (call : σ → κ → σ) (other : σ → σ → Prop) : σ → List κ → σ → Prop
  | done (s : σ) : Takes call other s [] s
  | call {s t : σ} {l : List κ} (k : κ) :
      Takes call other (call s k) l t → Takes call other s (k :: l) t
  | other {s s' t : σ} {l : List κ} :
      other s s' → Takes call other s' l t → Takes call other s l t

variable {call : σ → κ → σ} {other other' : σ → σ → Prop}

namespace Takes
variable {s t u : σ} {l m : List κ}

theorem of_call (s : σ) (k : κ) : Takes call other s [k] (call s k) := .call k (.done _)

theorem of_other (h : other s t) : Takes call other s [] t := .other h (.done t)

theorem trans (h : Takes call other s l t) (h' : Takes call other t m u) :
    Takes call other s (l ++ m) u := by
  induction h with
  | done s => exact h'
  | call k _ ih => exact .call k (ih h')
  | other hstep _ ih => exact .other hstep (ih h')

theorem mono (hother : ∀ s t, other s t → other' s t) (h : Takes call other s l t) :
    Takes call other' s l t := by
  induction h with
  | done s => exact .done s
  | call k _ ih => exact .call k ih
  | other hstep _ ih => exact .other (hother _ _ hstep) ih

/-- What neither a call nor another step changes. -/
theorem image_eq {f : σ → ν} (hcall : ∀ s k, f (call s k) = f s)
    (hother : ∀ s t, other s t → f t = f s) (h : Takes call other s l t) : f t = f s := by
  induction h with
  | done s => rfl
  | call k _ ih => exact ih.trans (hcall _ k)
  | other hstep _ ih => exact ih.trans (hother _ _ hstep)

end Takes

/-- Each party becomes the one at its place in the other list by the calls for its name. -/
def EachTakes (call : σ → κ → σ) (other : σ → σ → Prop) (name : σ → ν) (l : List σ)
    (calls : ν → List κ) (l' : List σ) : Prop :=
  List.Forall₂ (fun s t => Takes call other s (calls (name s)) t) l l'

namespace EachTakes
variable {name : σ → ν} {calls more : ν → List κ} {l l' l'' : List σ}

theorem map {f : σ → σ} (h : ∀ s, Takes call other s (calls (name s)) (f s)) (l : List σ) :
    EachTakes call other name l calls (l.map f) := by
  rw [EachTakes, List.forall₂_map_right_iff, List.forall₂_same]
  exact fun s _ => h s

theorem refl (l : List σ) : EachTakes call other name l (fun _ => []) l := by
  rw [EachTakes, List.forall₂_same]
  exact fun s _ => .done s

theorem cons {s t : σ} (h : Takes call other s (calls (name s)) t)
    (hrest : EachTakes call other name l calls l') :
    EachTakes call other name (s :: l) calls (t :: l') :=
  List.Forall₂.cons h hrest

/-- One party takes a step, or several, and no call. -/
theorem set {i : ℕ} {s t : σ} (hs : l[i]? = some s) (h : Takes call other s [] t) :
    EachTakes call other name l (fun _ => []) (l.set i t) := by
  rw [EachTakes, List.forall₂_iff_get]
  refine ⟨List.length_set.symm, fun j hj hj' => ?_⟩
  simp only [List.get_eq_getElem, List.getElem_set]
  split_ifs with hij
  · subst hij
    obtain ⟨_, rfl⟩ := List.getElem?_eq_some_iff.mp hs
    exact h
  · exact .done _

theorem mono (hother : ∀ s t, other s t → other' s t) (h : EachTakes call other name l calls l') :
    EachTakes call other' name l calls l' :=
  List.Forall₂.imp (fun _ _ => Takes.mono hother) h

theorem trans (hcall : ∀ s k, name (call s k) = name s)
    (hother : ∀ s t, other s t → name t = name s) (h : EachTakes call other name l calls l')
    (h' : EachTakes call other name l' more l'') :
    EachTakes call other name l (fun n => calls n ++ more n) l'' := by
  unfold EachTakes at h h' ⊢
  induction h generalizing l'' with
  | nil =>
    cases h'
    exact .nil
  | cons hs _ ih =>
    cases h' with
    | cons ht hrest =>
      rw [hs.image_eq hcall hother] at ht
      exact .cons (hs.trans ht) (ih hrest)

/-- A party at the end, traced back. -/
theorem exists_of_mem (hcall : ∀ s k, name (call s k) = name s)
    (hother : ∀ s t, other s t → name t = name s) (h : EachTakes call other name l calls l') {t : σ}
    (ht : t ∈ l') : ∃ s ∈ l, Takes call other s (calls (name t)) t := by
  unfold EachTakes at h
  induction h with
  | nil => cases ht
  | cons hs _ ih =>
    rcases List.mem_cons.mp ht with rfl | ht
    · rw [hs.image_eq hcall hother]
      exact ⟨_, List.mem_cons_self, hs⟩
    · obtain ⟨s, hmem, htakes⟩ := ih ht
      exact ⟨s, List.mem_cons_of_mem _ hmem, htakes⟩

end EachTakes
end SfuKit.Library.Interleaving
