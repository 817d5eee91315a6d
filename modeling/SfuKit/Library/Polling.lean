import Mathlib.Tactic

/-! # Parties that are polled in turn

Each party has a feed of results. The loop goes through the parties in order and takes the
results of one until a step ends its turn, or the party has died of a result. If that depends
on the result alone, what the loop does is a fold over a list known beforehand.
-/
namespace SfuKit.Library.Polling

variable {σ ι α κ : Type*}

/-- Take results until a step ends the turn. -/
def drain (step : σ → ι → σ × Bool) : σ → List ι → σ
  | s, [] => s
  | s, x :: rest =>
    match step s x with
    | (s, true) => s
    | (s, false) => drain step s rest

/-- The results that a live party takes: up to the first that ends its turn. -/
def taken (ends : ι → Bool) : List ι → List ι
  | [] => []
  | x :: rest => if ends x then [x] else x :: taken ends rest

/-- A loop over parties with names. The first argument of `step` is the position polled. -/
structure Loop (σ ι α κ : Type*) where
  parties : σ → List α
  name : α → κ
  live : α → Bool
  ends : ι → Bool
  step : ℕ → σ → ι → σ × Bool

namespace Loop
variable (L : Loop σ ι α κ)

def turn (feed : κ → List ι) (s : σ) (i : ℕ) : σ :=
  match (L.parties s)[i]? with
  | some a => drain (L.step i) s (feed (L.name a))
  | none => s

def round (feed : κ → List ι) (s : σ) : σ :=
  (List.range (L.parties s).length).foldl (L.turn feed) s

def share (feed : κ → List ι) (a : α) : List (κ × ι) :=
  if L.live a then (taken L.ends (feed (L.name a))).map (L.name a, ·) else []

/-- The results that the loop takes, in order. -/
def trace (feed : κ → List ι) (l : List α) : List (κ × ι) := l.flatMap (L.share feed)

/-- What the loop needs to know of a step. -/
structure Turnwise : Prop where
  idle : ∀ i s x, (∀ a ∈ (L.parties s)[i]?, L.live a = false) → L.step i s x = (s, true)
  others : ∀ i j s x, j ≠ i → (L.parties (L.step i s x).1)[j]? = (L.parties s)[j]?
  last : ∀ i s x a, (L.parties s)[i]? = some a → L.live a = true → L.ends x = true →
    (L.step i s x).2 = true ∨ ∀ b ∈ (L.parties (L.step i s x).1)[i]?, L.live b = false
  more : ∀ i s x a, (L.parties s)[i]? = some a → L.live a = true → L.ends x = false →
    (L.step i s x).2 = false ∧
      ∃ b, (L.parties (L.step i s x).1)[i]? = some b ∧ L.live b = true ∧ L.name b = L.name a

variable {L}

theorem drain_idle (h : L.Turnwise) {i : ℕ} {s : σ}
    (hi : ∀ a ∈ (L.parties s)[i]?, L.live a = false) (l : List ι) : drain (L.step i) s l = s := by
  cases l with
  | nil => rfl
  | cons x rest => rw [drain, h.idle i s x hi]

theorem drain_others (h : L.Turnwise) {i j : ℕ} (hj : j ≠ i) (s : σ) (l : List ι) :
    (L.parties (drain (L.step i) s l))[j]? = (L.parties s)[j]? := by
  induction l generalizing s with
  | nil => rfl
  | cons x rest ih =>
    have hstep := h.others i j s x hj
    unfold drain
    generalize L.step i s x = q at hstep
    obtain ⟨s', ended⟩ := q
    cases ended with
    | true => exact hstep
    | false => exact (ih s').trans hstep

section View
variable {τ : Type*} {view : σ → τ} {absorb : τ → κ × ι → τ}

theorem drain_view (h : L.Turnwise)
    (hview : ∀ i s x a, (L.parties s)[i]? = some a → L.live a = true →
      view (L.step i s x).1 = absorb (view s) (L.name a, x))
    {i : ℕ} {s : σ} {a : α} (ha : (L.parties s)[i]? = some a) (hlive : L.live a = true)
    (l : List ι) :
    view (drain (L.step i) s l) = ((taken L.ends l).map (L.name a, ·)).foldl absorb (view s) := by
  induction l generalizing s a with
  | nil => rfl
  | cons x rest ih =>
    have hx := hview i s x a ha hlive
    cases he : L.ends x with
    | true =>
      -- Whatever follows, the party takes no more.
      have hend : view (drain (L.step i) s (x :: rest)) = view (L.step i s x).1 := by
        have hlast := h.last i s x a ha hlive he
        unfold drain
        generalize L.step i s x = q at hlast
        obtain ⟨s', ended⟩ := q
        cases ended with
        | true => rfl
        | false =>
          rcases hlast with hflag | hdead
          · cases hflag
          · exact congrArg view (drain_idle h hdead rest)
      rw [hend, hx, taken, if_pos he]
      rfl
    | false =>
      obtain ⟨hflag, b, hb, hblive, hname⟩ := h.more i s x a ha hlive he
      have hgo : drain (L.step i) s (x :: rest) = drain (L.step i) (L.step i s x).1 rest := by
        conv_lhs => unfold drain
        generalize L.step i s x = q at hflag
        obtain ⟨s', ended⟩ := q
        cases hflag
        rfl
      rw [hgo, ih hb hblive, hx, hname, taken, he, if_neg Bool.false_ne_true]
      rfl

theorem turn_view (h : L.Turnwise)
    (hview : ∀ i s x a, (L.parties s)[i]? = some a → L.live a = true →
      view (L.step i s x).1 = absorb (view s) (L.name a, x))
    (feed : κ → List ι) {i : ℕ} {s : σ} {a : α} (ha : (L.parties s)[i]? = some a) :
    view (L.turn feed s i) = (L.share feed a).foldl absorb (view s) := by
  rw [turn, ha]
  dsimp only
  cases hlive : L.live a with
  | true =>
    rw [drain_view h hview ha hlive, share, if_pos hlive]
  | false =>
    have hdead : ∀ b ∈ (L.parties s)[i]?, L.live b = false := by
      intro b hb
      rw [ha] at hb
      cases hb
      exact hlive
    rw [drain_idle h hdead, share, hlive, if_neg Bool.false_ne_true]
    rfl

/-- A view of the state that each step on a live party changes in one way, known from the name
and the result, has changed by the whole trace after the loop. -/
theorem round_view (h : L.Turnwise)
    (hview : ∀ i s x a, (L.parties s)[i]? = some a → L.live a = true →
      view (L.step i s x).1 = absorb (view s) (L.name a, x))
    (feed : κ → List ι) (s : σ) :
    view (L.round feed s) = (L.trace feed (L.parties s)).foldl absorb (view s) := by
  have hloop : ∀ n, n ≤ (L.parties s).length →
      view ((List.range n).foldl (L.turn feed) s) =
          (L.trace feed ((L.parties s).take n)).foldl absorb (view s) ∧
        ∀ j, n ≤ j → (L.parties ((List.range n).foldl (L.turn feed) s))[j]? = (L.parties s)[j]? := by
    intro n
    induction n with
    | zero => exact fun _ => ⟨rfl, fun _ _ => rfl⟩
    | succ n ih =>
      intro hn
      obtain ⟨hprev, hrest⟩ := ih (Nat.le_of_succ_le hn)
      have hget : (L.parties s)[n]? = some (L.parties s)[n] := List.getElem?_eq_getElem hn
      have hat := (hrest n le_rfl).trans hget
      rw [List.range_succ, List.foldl_append]
      refine ⟨?_, fun j hj => ?_⟩
      · have htake : L.trace feed ((L.parties s).take (n + 1)) =
            L.trace feed ((L.parties s).take n) ++ L.share feed (L.parties s)[n] := by
          rw [trace, List.take_add_one, hget, List.flatMap_append, Option.toList_some,
            List.flatMap_singleton]
          rfl
        rw [List.foldl_cons, List.foldl_nil, turn_view h hview feed hat, hprev, htake,
          List.foldl_append]
      · have hturn : ∀ s' : σ, (L.parties (L.turn feed s' n))[j]? = (L.parties s')[j]? := by
          intro s'
          unfold turn
          split
          · exact drain_others h (by omega) s' _
          · rfl
        exact (hturn _).trans (hrest j (by omega))
  have hall := (hloop _ le_rfl).1
  rw [List.take_length] at hall
  exact hall

end View
end Loop
end SfuKit.Library.Polling
