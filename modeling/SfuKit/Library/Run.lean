import Mathlib.Tactic

/-! # Runs of a deterministic labelled system

A system is a total step function. `run` folds it over a list of inputs, and
`Along` states a property of every step of a run: of the state the step meets
and of the input it takes. Nothing here depends on what the states are.
-/
namespace SfuKit.Library.Run

variable {σ ι : Type*} (step : σ → ι → σ)

def run (s : σ) (l : List ι) : σ := l.foldl step s

@[simp] theorem run_nil (s : σ) : run step s [] = s := rfl

@[simp] theorem run_cons (s : σ) (i : ι) (l : List ι) :
    run step s (i :: l) = run step (step s i) l := rfl

theorem run_append (s : σ) (l m : List ι) :
    run step s (l ++ m) = run step (run step s l) m := by
  simp [run, List.foldl_append]

@[simp] theorem run_concat (s : σ) (l : List ι) (i : ι) :
    run step s (l ++ [i]) = step (run step s l) i := by
  simp [run_append]

/-- Every step of the run from `s` meets a state and takes an input that satisfy `P`. -/
def Along (P : σ → ι → Prop) : σ → List ι → Prop
  | _, [] => True
  | s, i :: l => P s i ∧ Along P (step s i) l

variable {step}

instance Along.decidable (P : σ → ι → Prop) [∀ s i, Decidable (P s i)] :
    ∀ s l, Decidable (Along step P s l)
  | _, [] => isTrue trivial
  | s, i :: l => @instDecidableAnd _ _ _ (Along.decidable P (step s i) l)

@[simp] theorem along_nil (P : σ → ι → Prop) (s : σ) : Along step P s [] := trivial

@[simp] theorem along_cons (P : σ → ι → Prop) (s : σ) (i : ι) (l : List ι) :
    Along step P s (i :: l) ↔ P s i ∧ Along step P (step s i) l := Iff.rfl

/-- A property of all steps, read off each prefix of the run. -/
theorem along_iff (P : σ → ι → Prop) (s : σ) (l : List ι) :
    Along step P s l ↔ ∀ pre i post, l = pre ++ i :: post → P (run step s pre) i := by
  induction l generalizing s with
  | nil => simp
  | cons i l ih =>
    rw [along_cons, ih]
    constructor
    · rintro ⟨hi, hl⟩ pre j post he
      cases pre with
      | nil => simpa using (List.cons.inj he).1 ▸ hi
      | cons k pre =>
        obtain ⟨rfl, htail⟩ := List.cons.inj he
        exact hl pre j post htail
    · intro h
      refine ⟨h [] i l rfl, fun pre j post he => ?_⟩
      exact h (i :: pre) j post (by rw [he, List.cons_append])

/-- The same, over the prefixes that end in the input. -/
theorem along_iff_prefix (P : σ → ι → Prop) (s : σ) (l : List ι) :
    Along step P s l ↔ ∀ pre i, pre ++ [i] <+: l → P (run step s pre) i := by
  rw [along_iff]
  constructor
  · rintro h pre i ⟨post, rfl⟩
    exact h pre i post (by rw [List.append_assoc, List.singleton_append])
  · rintro h pre i post rfl
    exact h pre i ⟨post, by rw [List.append_assoc, List.singleton_append]⟩

theorem along_append (P : σ → ι → Prop) (s : σ) (l m : List ι) :
    Along step P s (l ++ m) ↔ Along step P s l ∧ Along step P (run step s l) m := by
  induction l generalizing s with
  | nil => simp
  | cons i l ih => rw [List.cons_append, along_cons, ih, along_cons, and_assoc, run_cons]

theorem along_of_forall {P : ι → Prop} {l : List ι} (h : ∀ i ∈ l, P i) (s : σ) :
    Along step (fun _ i => P i) s l := by
  induction l generalizing s with
  | nil => trivial
  | cons i l ih => exact ⟨h i List.mem_cons_self, ih (fun j hj => h j (List.mem_cons_of_mem i hj)) _⟩

theorem Along.and {P Q : σ → ι → Prop} {s : σ} {l : List ι} (hP : Along step P s l)
    (hQ : Along step Q s l) : Along step (fun s i => P s i ∧ Q s i) s l := by
  induction l generalizing s with
  | nil => trivial
  | cons i l ih => exact ⟨⟨hP.1, hQ.1⟩, ih hP.2 hQ.2⟩

/-- Two properties of the steps that agree under an invariant, which they keep. -/
theorem along_congr {P Q : σ → ι → Prop} {Inv : σ → Prop}
    (hiff : ∀ s i, Inv s → (P s i ↔ Q s i)) (hkeep : ∀ s i, Inv s → P s i → Inv (step s i)) {s : σ}
    (h0 : Inv s) (l : List ι) : Along step P s l ↔ Along step Q s l := by
  induction l generalizing s with
  | nil => exact Iff.rfl
  | cons i l ih =>
    rw [along_cons, along_cons, ← hiff s i h0]
    exact and_congr_right fun hP => ih (hkeep s i h0 hP)

/-- The invariant rule: what every step keeps, under a condition that every
step of the run meets, holds at the end of the run. -/
theorem invariant {P : σ → ι → Prop} {Inv : σ → Prop}
    (hstep : ∀ s i, Inv s → P s i → Inv (step s i)) {s : σ} {l : List ι}
    (h0 : Inv s) (hl : Along step P s l) : Inv (run step s l) := by
  induction l generalizing s with
  | nil => exact h0
  | cons i l ih => exact ih (hstep s i h0 hl.1) hl.2

/-- The invariant rule when every input is allowed. -/
theorem invariant_all {Inv : σ → Prop} (hstep : ∀ s i, Inv s → Inv (step s i))
    {s : σ} (l : List ι) (h0 : Inv s) : Inv (run step s l) := by
  induction l generalizing s with
  | nil => exact h0
  | cons i l ih => exact ih (hstep s i h0)

/-- The invariant rule for a state together with the inputs it has taken. -/
theorem history_invariant {P : σ → ι → Prop} {Inv : List ι → σ → Prop}
    (hstep : ∀ h s i, Inv h s → P s i → Inv (h ++ [i]) (step s i)) {s : σ} {l : List ι}
    (h0 : Inv [] s) (hl : Along step P s l) : Inv l (run step s l) := by
  induction l using List.reverseRecOn with
  | nil => exact h0
  | append_singleton l i ih =>
    rw [along_append] at hl
    rw [run_concat]
    exact hstep l _ i (ih hl.1) hl.2.1

theorem history_invariant_all {Inv : List ι → σ → Prop}
    (hstep : ∀ h s i, Inv h s → Inv (h ++ [i]) (step s i)) {s : σ} (h0 : Inv [] s)
    (l : List ι) : Inv l (run step s l) :=
  history_invariant (P := fun _ _ => True) (fun h s i hi _ => hstep h s i hi) h0
    (along_of_forall (fun _ _ => trivial) s)

/-- Under one input for ever, a system reaches a set it does not leave within a number of
steps that bounds a measure which falls outside that set. -/
theorem settles {i : ι} {Inv Settled : σ → Prop} {measure : σ → ℕ}
    (hinv : ∀ s, Inv s → Inv (step s i)) (hkeep : ∀ s, Inv s → Settled s → Settled (step s i))
    (hfall : ∀ s, Inv s → ¬ Settled s → measure (step s i) < measure s) {s : σ} (h0 : Inv s)
    {n : ℕ} (hn : measure s ≤ n) : Settled (run step s (List.replicate n i)) := by
  have hstay : ∀ n s, Inv s → Settled s → Settled (run step s (List.replicate n i)) := by
    intro n
    induction n with
    | zero => exact fun _ _ h => h
    | succ n ih => exact fun s h hs => ih (step s i) (hinv s h) (hkeep s h hs)
  induction n generalizing s with
  | zero =>
    by_contra hs
    have := hfall s h0 hs
    omega
  | succ n ih =>
    by_cases hs : Settled s
    · exact hstay (n + 1) s h0 hs
    · have := hfall s h0 hs
      exact ih (hinv s h0) (by omega)

/-- A property holds in every state of a run exactly when every step meets a condition, if
a stronger one is kept under the condition and no step that fails it leaves the property. -/
theorem forall_prefix_iff_weak {P Q : σ → ι → Prop} {Inv Weak : σ → Prop}
    (hkeep : ∀ s i, Inv s → Q s i → P s i → Inv (step s i))
    (hneed : ∀ s i, Inv s → Q s i → Weak (step s i) → P s i) (hweak : ∀ s, Inv s → Weak s)
    {s : σ} (h0 : Inv s) {l : List ι} (hQ : Along step Q s l) :
    (∀ pre, pre <+: l → Weak (run step s pre)) ↔ Along step P s l := by
  induction l generalizing s with
  | nil =>
    refine ⟨fun _ => trivial, fun _ pre hpre => ?_⟩
    rw [List.prefix_nil.mp hpre]
    exact hweak s h0
  | cons i l ih =>
    constructor
    · intro h
      have hi : P s i := hneed s i h0 hQ.1 (h [i] (List.prefix_append [i] l))
      refine ⟨hi, (ih (hkeep s i h0 hQ.1 hi) hQ.2).mp fun pre hpre => ?_⟩
      exact h (i :: pre) ((List.prefix_cons_inj i).mpr hpre)
    · rintro ⟨hi, hl⟩ pre hpre
      cases pre with
      | nil => exact hweak s h0
      | cons j pre =>
        obtain ⟨rfl, htail⟩ := List.cons_prefix_cons.mp hpre
        exact (ih (hkeep s j h0 hQ.1 hi) hQ.2).mpr hl pre htail

/-- A property that a step keeps exactly under a condition, granted another, holds in every
state of a run that meets the other exactly when every step of the run meets the condition. -/
theorem forall_prefix_iff_of {P Q : σ → ι → Prop} {Inv : σ → Prop}
    (hstep : ∀ s i, Inv s → Q s i → (Inv (step s i) ↔ P s i)) {s : σ} (h0 : Inv s) {l : List ι}
    (hQ : Along step Q s l) : (∀ pre, pre <+: l → Inv (run step s pre)) ↔ Along step P s l :=
  forall_prefix_iff_weak (fun s i h hq => (hstep s i h hq).mpr)
    (fun s i h hq => (hstep s i h hq).mp) (fun _ h => h) h0 hQ

/-- A property that a step keeps exactly under a condition holds in every state of a run
exactly when every step of the run meets the condition. -/
theorem forall_prefix_iff {P : σ → ι → Prop} {Inv : σ → Prop}
    (hstep : ∀ s i, Inv s → (Inv (step s i) ↔ P s i)) {s : σ} (h0 : Inv s) (l : List ι) :
    (∀ pre, pre <+: l → Inv (run step s pre)) ↔ Along step P s l :=
  forall_prefix_iff_of (Q := fun _ _ => True) (fun s i h _ => hstep s i h) h0
    (along_of_forall (fun _ _ => trivial) s)

/-- Two systems in lockstep, each with an input of its own. -/
def pair {τ κ : Type*} (step : σ → ι → σ) (step₂ : τ → κ → τ) (s : σ × τ) (i : ι × κ) : σ × τ :=
  (step s.1 i.1, step₂ s.2 i.2)

theorem run_pair {τ κ : Type*} (step : σ → ι → σ) (step₂ : τ → κ → τ) (s : σ × τ)
    (l : List (ι × κ)) : run (pair step step₂) s l =
      (run step s.1 (l.map Prod.fst), run step₂ s.2 (l.map Prod.snd)) := by
  induction l generalizing s with
  | nil => rfl
  | cons i l ih => rw [run_cons, ih, List.map_cons, List.map_cons, run_cons, run_cons, pair]

/-- A property that is lost for good by every step that fails a condition, and by no other,
holds after a run exactly when every step of the run meets the condition. -/
theorem run_iff_along {P : σ → ι → Prop} {Inv Q : σ → Prop}
    (hinv : ∀ s i, Inv s → Inv (step s i)) (hstep : ∀ s i, Inv s → (Q (step s i) ↔ Q s ∧ P s i))
    {s : σ} (h0 : Inv s) (l : List ι) : Q (run step s l) ↔ Q s ∧ Along step P s l := by
  induction l generalizing s with
  | nil => simp
  | cons i l ih => rw [run_cons, ih (hinv s i h0), hstep s i h0, along_cons, and_assoc]

/-- A relation between two systems that a step of each keeps relates their runs. -/
theorem run_related {τ κ : Type*} {step₂ : τ → κ → τ} {R : σ → τ → Prop} {f : ι → κ}
    (hstep : ∀ s t i, R s t → R (step s i) (step₂ t (f i))) {s : σ} {t : τ} (h : R s t)
    (l : List ι) : R (run step s l) (run step₂ t (l.map f)) := by
  induction l generalizing s t with
  | nil => exact h
  | cons i l ih => exact ih (hstep s t i h)

/-- What shows of a state changes step by step as another system does over what it reads off the
inputs; then a run of the one shows a run of the other. -/
theorem view_run {τ κ : Type*} {view : σ → τ} {read : ι → List κ} {absorb : τ → κ → τ}
    {Inv : σ → Prop} (hinv : ∀ s i, Inv s → Inv (step s i))
    (hstep : ∀ s i, Inv s → view (step s i) = run absorb (view s) (read i)) {s : σ} (hs : Inv s)
    (l : List ι) : view (run step s l) = run absorb (view s) (l.flatMap read) := by
  induction l generalizing s with
  | nil => rfl
  | cons i l ih =>
    rw [run_cons, ih (hinv s i hs), hstep s i hs, List.flatMap_cons, run_append]

/-- What shows of a state changes with some of the inputs only, and by what shows alone; then a
run shows what the run over these inputs shows. -/
theorem view_run_filter {τ : Type*} (view : σ → τ) (absorb : τ → ι → τ) (p : ι → Bool)
    (hstep : ∀ s i, view (step s i) = if p i then absorb (view s) i else view s) (s : σ)
    (l : List ι) : view (run step s l) = view (run step s (l.filter p)) := by
  suffices hpair : ∀ s t, view s = view t → view (run step s l) = view (run step t (l.filter p)) from
    hpair s s rfl
  induction l with
  | nil => exact fun s t h => h
  | cons i l ih =>
    intro s t h
    by_cases hp : p i = true
    · rw [List.filter_cons_of_pos hp, run_cons, run_cons]
      apply ih
      rw [hstep, hstep, if_pos hp, if_pos hp, h]
    · rw [List.filter_cons_of_neg hp, run_cons]
      apply ih
      rw [hstep, if_neg hp, h]

/-- What the steps of a run put out, in order. -/
def outputs {α : Type*} (step : σ → ι → σ) (out : σ → ι → Option α) : σ → List ι → List α
  | _, [] => []
  | s, i :: l => (out s i).toList ++ outputs step out (step s i) l

/-- Outputs that repeat a part of the input are found in it. -/
theorem mem_of_mem_outputs {α : Type*} {out : σ → ι → Option α} {part : ι → Option α}
    (hout : ∀ s i, ∀ a ∈ out s i, a ∈ part i) {s : σ} {l : List ι} {a : α}
    (ha : a ∈ outputs step out s l) : a ∈ l.filterMap part := by
  induction l generalizing s with
  | nil => cases ha
  | cons i l ih =>
    rw [List.mem_filterMap]
    rcases List.mem_append.mp ha with hi | hl
    · exact ⟨i, List.mem_cons_self, hout s i a (Option.mem_toList.mp hi)⟩
    · obtain ⟨j, hj, hja⟩ := List.mem_filterMap.mp (ih hl)
      exact ⟨j, List.mem_cons_of_mem i hj, hja⟩

/-- What the steps of a run put out when a step can put out several things, in order. -/
def emissions {α : Type*} (step : σ → ι → σ) (out : σ → ι → List α) : σ → List ι → List α
  | _, [] => []
  | s, i :: l => out s i ++ emissions step out (step s i) l

theorem forall_emissions {α : Type*} {out : σ → ι → List α} {P : α → Prop}
    (hout : ∀ s i, ∀ a ∈ out s i, P a) {s : σ} {l : List ι} :
    ∀ a ∈ emissions step out s l, P a := by
  induction l generalizing s with
  | nil => exact fun a ha => by cases ha
  | cons i l ih =>
    intro a ha
    rcases List.mem_append.mp ha with ha | ha
    · exact hout s i a ha
    · exact ih a ha

/-- A log that every step extends by what it puts out. -/
theorem log_run {α : Type*} {out : σ → ι → List α} (log : σ → List α) {Inv : σ → Prop}
    (hinv : ∀ s i, Inv s → Inv (step s i))
    (hlog : ∀ s i, Inv s → log (step s i) = log s ++ out s i) {s : σ} (hs : Inv s) (l : List ι) :
    log (run step s l) = log s ++ emissions step out s l := by
  induction l generalizing s with
  | nil => exact (List.append_nil _).symm
  | cons i l ih => rw [run_cons, ih (hinv s i hs), hlog s i hs, emissions, List.append_assoc]

/-- A log to which no step adds more than it puts out, and from which steps may strike. -/
theorem sublist_run {α : Type*} {out : σ → ι → List α} (log : σ → List α) {Inv : σ → Prop}
    (hinv : ∀ s i, Inv s → Inv (step s i))
    (hlog : ∀ s i, Inv s → (log (step s i)).Sublist (log s ++ out s i)) {s : σ} (hs : Inv s)
    (l : List ι) : (log (run step s l)).Sublist (log s ++ emissions step out s l) := by
  induction l generalizing s with
  | nil =>
    rw [emissions, List.append_nil]
    exact List.Sublist.refl _
  | cons i l ih =>
    rw [run_cons, emissions, ← List.append_assoc]
    exact (ih (hinv s i hs)).trans ((hlog s i hs).append_right _)

/-- A relation between states and what is put out on the way, which composes. -/
theorem relates_run {α : Type*} {out : σ → ι → List α} {R : σ → List α → σ → Prop}
    {Inv : σ → Prop} (hrefl : ∀ s, R s [] s)
    (htrans : ∀ {s a t b u}, R s a t → R t b u → R s (a ++ b) u)
    (hinv : ∀ s i, Inv s → Inv (step s i)) (hstep : ∀ s i, Inv s → R s (out s i) (step s i))
    {s : σ} (hs : Inv s) (l : List ι) : R s (emissions step out s l) (run step s l) := by
  induction l generalizing s with
  | nil => exact hrefl s
  | cons i l ih => exact htrans (hstep s i hs) (ih (hinv s i hs))

/-- A step that another system takes several steps for: then a run of the one is a run of the
other, over what the steps of the one amount to. -/
theorem run_refines {τ κ : Type*} {step₂ : τ → κ → τ} (view : σ → τ) {read : σ → ι → List κ}
    {Inv : σ → Prop} (hinv : ∀ s i, Inv s → Inv (step s i))
    (hstep : ∀ s i, Inv s → view (step s i) = run step₂ (view s) (read s i)) {s : σ} (hs : Inv s)
    (l : List ι) : view (run step s l) = run step₂ (view s) (emissions step read s l) := by
  induction l generalizing s with
  | nil => rfl
  | cons i l ih => rw [run_cons, ih (hinv s i hs), hstep s i hs, emissions, run_append]

/-- What the weights of the steps of a run add up to. -/
def total {M : Type*} [AddCommMonoid M] (step : σ → ι → σ) (w : σ → ι → M) : σ → List ι → M
  | _, [] => 0
  | s, i :: l => w s i + total step w (step s i) l

/-- A measure that every step raises by its weight is raised by the total over a run. -/
theorem telescope {M : Type*} [AddCommMonoid M] {w : σ → ι → M} (measure : σ → M)
    (hstep : ∀ s i, measure (step s i) = measure s + w s i) (s : σ) (l : List ι) :
    measure (run step s l) = measure s + total step w s l := by
  induction l generalizing s with
  | nil => exact (add_zero _).symm
  | cons i l ih => rw [run_cons, ih, hstep, total, add_assoc]

/-- Weights that are not negative add up to nothing exactly if each is nothing. -/
theorem total_eq_zero_iff {M : Type*} [AddCommMonoid M] [PartialOrder M] [IsOrderedAddMonoid M]
    {w : σ → ι → M} (hw : ∀ s i, 0 ≤ w s i) (s : σ) (l : List ι) :
    total step w s l = 0 ↔ Along step (fun s i => w s i = 0) s l := by
  have hnonneg : ∀ s l, 0 ≤ total step w s l := by
    intro s l
    induction l generalizing s with
    | nil => exact le_rfl
    | cons i l ih => exact add_nonneg (hw s i) (ih _)
  induction l generalizing s with
  | nil => exact iff_of_true rfl trivial
  | cons i l ih =>
    rw [total, add_eq_zero_iff_of_nonneg (hw s i) (hnonneg _ l), along_cons]
    exact and_congr_right' (ih (step s i))

/-- A step that can end its loop, as a step on the state with a flag that it has. -/
def halting (step : σ → ι → σ × Bool) (s : σ × Bool) (i : ι) : σ × Bool :=
  if s.2 then s else step s.1 i

/-- The weight of a step of such a loop, which is nothing once the loop has ended. -/
def haltingWeight {M : Type*} [AddCommMonoid M] (w : σ → ι → M) (s : σ × Bool) (i : ι) : M :=
  if s.2 then 0 else w s.1 i

theorem telescope_halting {M : Type*} [AddCommMonoid M] {step : σ → ι → σ × Bool}
    {w : σ → ι → M} (measure : σ → M)
    (hstep : ∀ s i, measure (step s i).1 = measure s + w s i) (s : σ × Bool) (l : List ι) :
    measure (run (halting step) s l).1 =
      measure s.1 + total (halting step) (haltingWeight w) s l := by
  have hflagged : ∀ (s : σ × Bool) i,
      measure (halting step s i).1 = measure s.1 + haltingWeight w s i := by
    intro s i
    unfold halting haltingWeight
    split_ifs
    · exact (add_zero _).symm
    · exact hstep s.1 i
  exact telescope (fun s : σ × Bool => measure s.1) hflagged s l

/-- A state with a property somewhere along a run: the first one, or one of the rest. -/
theorem exists_prefix_cons {P : σ → Prop} (s : σ) (i : ι) (l : List ι) :
    (∃ pre, pre <+: i :: l ∧ P (run step s pre)) ↔
      P s ∨ ∃ pre, pre <+: l ∧ P (run step (step s i) pre) := by
  constructor
  · rintro ⟨pre, hpre, h⟩
    cases pre with
    | nil => exact .inl h
    | cons j pre =>
      obtain ⟨rfl, htail⟩ := List.cons_prefix_cons.mp hpre
      exact .inr ⟨pre, htail, h⟩
  · rintro (h | ⟨pre, hpre, h⟩)
    · exact ⟨[], List.nil_prefix, h⟩
    · exact ⟨i :: pre, (List.prefix_cons_inj i).mpr hpre, h⟩

/-- The prefixes that end in a given input, met one by one. -/
theorem forall_concat_prefix_cons {P : List ι → Prop} (i j : ι) (l : List ι) :
    (∀ pre, pre ++ [j] <+: i :: l → P pre) ↔
      (i = j → P []) ∧ ∀ pre, pre ++ [j] <+: l → P (i :: pre) := by
  constructor
  · intro h
    refine ⟨fun hij => h [] ?_, fun pre hpre => h (i :: pre) ?_⟩
    · rw [hij]
      exact List.prefix_append [j] l
    · exact (List.prefix_cons_inj i).mpr hpre
  · rintro ⟨h0, hl⟩ pre hpre
    cases pre with
    | nil => exact h0 (List.cons_prefix_cons.mp hpre).1.symm
    | cons k pre =>
      obtain ⟨rfl, htail⟩ := List.cons_prefix_cons.mp hpre
      exact hl pre htail

end SfuKit.Library.Run
