import Mathlib.Tactic

/-! # A pass over keyed components with a shared log

A pass updates every component of a list and appends what each of them did to
one log. A component only looks at its own entries of the log, so an argument
about one component at a time is an argument about the pass.
-/
namespace SfuKit.Library.Sweep

variable {σ κ ω : Type*}

/-- What one component keeps with its own entries, all components keep over a pass, along
with a property of the whole log. -/
theorem invariant (key : σ → κ) (owner : ω → κ) (f : σ → σ) (out : σ → List ω)
    {R : σ → List ω → Prop} {G : List ω → Prop} (hkey : ∀ s, key (f s) = key s)
    (howner : ∀ s, ∀ o ∈ out s, owner o = key s)
    (hother : ∀ s h o, owner o ≠ key s → R s h → R s (h ++ [o]))
    {l : List σ} (hstep : ∀ s ∈ l, ∀ h, R s h → G h → R (f s) (h ++ out s) ∧ G (h ++ out s))
    (hnodup : (l.map key).Nodup) {h : List ω} (hR : ∀ s ∈ l, R s h) (hG : G h) :
    (∀ s ∈ l.map f, R s (h ++ l.flatMap out)) ∧ G (h ++ l.flatMap out) := by
  have hothers : ∀ (b : List ω) (s : σ) (h : List ω), (∀ o ∈ b, owner o ≠ key s) → R s h →
      R s (h ++ b) := by
    intro b
    induction b with
    | nil => intro s h _ hs; simpa using hs
    | cons o rest ih =>
      intro s h hb hs
      have hone := hother s h o (hb o List.mem_cons_self) hs
      simpa using ih s _ (fun x hx => hb x (List.mem_cons_of_mem o hx)) hone
  induction l generalizing h with
  | nil => exact ⟨by simp, by simpa using hG⟩
  | cons a rest ih =>
    obtain ⟨ha, hrest⟩ := List.nodup_cons.mp hnodup
    have hne : ∀ s ∈ rest, key s ≠ key a := fun s hs heq => ha (heq ▸ List.mem_map_of_mem hs)
    obtain ⟨hfa, hGa⟩ := hstep a List.mem_cons_self h (hR a List.mem_cons_self) hG
    -- The rest of the pass meets the log with the entries of `a` on it.
    have htail := ih (fun s hs => hstep s (List.mem_cons_of_mem a hs)) hrest
      (fun s hs => hothers _ s h (fun o ho => by
        rw [howner a o ho]
        exact (hne s hs).symm) (hR s (List.mem_cons_of_mem a hs))) hGa
    simp only [List.map_cons, List.flatMap_cons, List.forall_mem_cons]
    rw [List.append_assoc] at htail
    refine ⟨⟨?_, htail.1⟩, htail.2⟩
    rw [← List.append_assoc]
    refine hothers _ _ _ (fun o ho => ?_) hfa
    obtain ⟨s, hs, ho⟩ := List.mem_flatMap.mp ho
    rw [howner s o ho, hkey]
    exact hne s hs

end SfuKit.Library.Sweep
