import Mathlib.Tactic

/-! # A queue that is broadcast to a pool

A pool holds parts, an environment they share and a queue. A step takes the first message off
the queue, shows it to the environment and to every part, and appends what the parts emit. If
what is emitted means nothing to anybody, each part ends as if it had been alone with the queue.
-/
namespace SfuKit.Library.Broadcast

structure Pool (ε σ μ : Type*) where
  env : ε
  parts : List σ
  queue : List μ

/-- What a message does. A part sees the environment as it was before the message. -/
structure Handler (ε σ μ : Type*) where
  env : ε → μ → ε
  part : ε → μ → σ → σ
  emit : ε → μ → σ → List μ

namespace Handler
variable {ε σ μ : Type*} (h : Handler ε σ μ)

def step (p : Pool ε σ μ) : Pool ε σ μ :=
  match p.queue with
  | [] => p
  | m :: rest =>
    { env := h.env p.env m
      parts := p.parts.map (h.part p.env m)
      queue := rest ++ p.parts.flatMap (h.emit p.env m) }

/-- A part alone with the environment. -/
def solo (x : ε × σ) (m : μ) : ε × σ := (h.env x.1 m, h.part x.1 m x.2)

/-- A message that means nothing to anybody. -/
structure Inert (m : μ) : Prop where
  env : ∀ e, h.env e m = e
  part : ∀ e s, h.part e m s = s

/-- Where the queue of a pool would take its environment and its parts. -/
def settle (p : Pool ε σ μ) : ε × List σ :=
  (p.queue.foldl h.env p.env, p.parts.map fun s => (p.queue.foldl h.solo (p.env, s)).2)

variable {h}

theorem foldl_env_inert {l : List μ} (hl : ∀ m ∈ l, h.Inert m) (e : ε) : l.foldl h.env e = e := by
  induction l with
  | nil => rfl
  | cons m l ih =>
    rw [List.foldl_cons, (hl m List.mem_cons_self).env]
    exact ih fun m' hm' => hl m' (List.mem_cons_of_mem m hm')

theorem foldl_solo_inert {l : List μ} (hl : ∀ m ∈ l, h.Inert m) (x : ε × σ) :
    l.foldl h.solo x = x := by
  induction l with
  | nil => rfl
  | cons m l ih =>
    have hm := hl m List.mem_cons_self
    rw [List.foldl_cons, solo, hm.env, hm.part]
    exact ih fun m' hm' => hl m' (List.mem_cons_of_mem m hm')

/-- A step does not change where a pool is going. -/
theorem settle_step (hemit : ∀ e m s, ∀ m' ∈ h.emit e m s, h.Inert m') (p : Pool ε σ μ) :
    h.settle (h.step p) = h.settle p := by
  obtain ⟨e, parts, queue⟩ := p
  cases queue with
  | nil => rfl
  | cons m rest =>
    have hinert : ∀ m' ∈ parts.flatMap (h.emit e m), h.Inert m' := by
      intro m' hm'
      obtain ⟨s, -, hs⟩ := List.mem_flatMap.mp hm'
      exact hemit e m s m' hs
    apply Prod.ext
    · simp only [settle, step, List.foldl_append, List.foldl_cons]
      exact foldl_env_inert hinert _
    · simp only [settle, step, List.map_map, Function.comp_def, List.foldl_append, List.foldl_cons]
      apply List.map_congr_left
      intro s _
      rw [foldl_solo_inert hinert]
      rfl

/-- Once the queue is empty, the environment has seen all of it, and each part as well. -/
theorem drained (hemit : ∀ e m s, ∀ m' ∈ h.emit e m s, h.Inert m') (p : Pool ε σ μ) (n : ℕ)
    (hempty : (h.step^[n] p).queue = []) :
    ((h.step^[n] p).env, (h.step^[n] p).parts) = h.settle p := by
  have hsettle : h.settle (h.step^[n] p) = h.settle p := by
    clear hempty
    induction n with
    | zero => rfl
    | succ n ih => rw [Function.iterate_succ_apply', settle_step hemit, ih]
  rw [← hsettle, settle, hempty]
  simp

/-- Two environments that look alike to a part, and stay so, take it to the same end. -/
theorem foldl_solo_congr {R : σ → ε → ε → Prop} {l : List μ}
    (henv : ∀ m ∈ l, ∀ e e' s, R s e e' → R (h.part e m s) (h.env e m) (h.env e' m))
    (hpart : ∀ m ∈ l, ∀ e e' s, R s e e' → h.part e m s = h.part e' m s) {e e' : ε} {s : σ}
    (hs : R s e e') : (l.foldl h.solo (e, s)).2 = (l.foldl h.solo (e', s)).2 := by
  induction l generalizing e e' s with
  | nil => rfl
  | cons m l ih =>
    have hm := hpart m List.mem_cons_self e e' s hs
    rw [List.foldl_cons, List.foldl_cons, solo, solo, ← hm]
    exact ih (fun m' hm' => henv m' (List.mem_cons_of_mem m hm'))
      (fun m' hm' => hpart m' (List.mem_cons_of_mem m hm'))
      (henv m List.mem_cons_self e e' s hs)

end Handler
end SfuKit.Library.Broadcast
