import SfuKit.Library.Run

/-! # Accounts and the log behind them

Each entry of a log is about one account, or about none. Accounts carry numbers, drawn from a
counter. A system keeps its books if a step appends to the log, posts what it appends to the
accounts that it keeps, and opens further accounts under new numbers only. Then the balance of
an account is at any time the log posted to what it was opened with.
-/
namespace SfuKit.Library.Ledger

/-- Which account an entry is about, and what it makes of the balance. -/
structure Book (ε β : Type*) where
  owner : ε → Option ℕ
  enter : β → ε → β

namespace Book
variable {ε β : Type*} (B : Book ε β)

/-- The balance of account `k` after some entries. -/
def post (k : ℕ) (l : List ε) (b : β) : β :=
  (l.filter fun e => B.owner e = some k).foldl B.enter b

theorem post_append (k : ℕ) (l m : List ε) (b : β) :
    B.post k (l ++ m) b = B.post k m (B.post k l b) := by
  simp only [post, List.filter_append, List.foldl_append]

theorem post_cons (k : ℕ) (e : ε) (l : List ε) (b : β) :
    B.post k (e :: l) b = B.post k l (if B.owner e = some k then B.enter b e else b) := by
  by_cases h : B.owner e = some k <;> simp [post, h]

theorem post_of_silent {k : ℕ} {l : List ε} (h : ∀ e ∈ l, B.owner e ≠ some k) (b : β) :
    B.post k l b = b := by
  induction l with
  | nil => rfl
  | cons e l ih =>
    rw [post_cons, if_neg (h e List.mem_cons_self)]
    exact ih fun e he => h e (List.mem_cons_of_mem _ he)

/-- The entries are about these accounts, and each has become what they make of it. -/
structure Settles (l : List ε) (accounts accounts' : List (ℕ × β)) : Prop where
  owned : ∀ e ∈ l, ∀ k ∈ B.owner e, k ∈ accounts.map Prod.fst
  settled : accounts' = accounts.map fun x => (x.1, B.post x.1 l x.2)

variable {B} {l m : List ε} {accounts accounts' accounts'' : List (ℕ × β)}

theorem Settles.names (h : B.Settles l accounts accounts') :
    accounts'.map Prod.fst = accounts.map Prod.fst := by
  rw [h.settled, List.map_map]
  rfl

theorem Settles.refl (accounts : List (ℕ × β)) : B.Settles [] accounts accounts where
  owned := by simp
  settled := (List.map_id _).symm

theorem Settles.trans (h : B.Settles l accounts accounts')
    (h' : B.Settles m accounts' accounts'') : B.Settles (l ++ m) accounts accounts'' where
  owned := by
    intro e he k hk
    rcases List.mem_append.mp he with he | he
    · exact h.owned e he k hk
    · rw [← h.names]
      exact h'.owned e he k hk
  settled := by
    rw [h'.settled, h.settled, List.map_map]
    apply List.map_congr_left
    intro x _
    rw [post_append]
    rfl

theorem Settles.of_silent (h : ∀ e ∈ l, B.owner e = none) (accounts : List (ℕ × β)) :
    B.Settles l accounts accounts where
  owned := by
    intro e he k hk
    rw [h e he] at hk
    cases hk
  settled := by
    symm
    convert List.map_id accounts using 1
    apply List.map_congr_left
    intro x _
    have hsilent : ∀ e ∈ l, B.owner e ≠ some x.1 := by
      intro e he
      simp [h e he]
    rw [B.post_of_silent hsilent]
    rfl

variable (B) in
/-- The accounts after some entries: those there were, with the entries posted, and others,
opened with these balances under the numbers from `n` on. -/
structure Posts (l : List ε) (n : ℕ) (opened : List β) (accounts accounts' : List (ℕ × β)) :
    Prop where
  drawn : ∀ e ∈ l, ∀ k ∈ B.owner e, k < n + opened.length
  posted : ∀ x ∈ accounts', (∃ b, (x.1, b) ∈ accounts ∧ x.2 = B.post x.1 l b) ∨
    ∃ b, n ≤ x.1 ∧ opened[x.1 - n]? = some b ∧ x.2 = B.post x.1 l b

theorem Posts.of_subset (h : accounts' ⊆ accounts) (n : ℕ) :
    B.Posts [] n [] accounts accounts' where
  drawn := by simp
  posted x hx := .inl ⟨x.2, h hx, rfl⟩

theorem Posts.open (n : ℕ) (b : β) (h : ∀ x ∈ accounts', x ∈ accounts ∨ x = (n, b)) :
    B.Posts [] n [b] accounts accounts' where
  drawn := by simp
  posted x hx := by
    rcases h x hx with hx | rfl
    · exact .inl ⟨x.2, hx, rfl⟩
    · exact .inr ⟨b, le_rfl, by simp, rfl⟩

/-- Some accounts are settled; the entries are not about the others. -/
theorem Settles.posts (h : B.Settles l accounts accounts') {others : List (ℕ × β)} {n : ℕ}
    (hothers : ∀ x ∈ others, x.1 ∉ accounts.map Prod.fst) (hn : ∀ x ∈ accounts, x.1 < n) :
    B.Posts l n [] (accounts ++ others) (accounts' ++ others) where
  drawn e he k hk := by
    obtain ⟨x, hx, rfl⟩ := List.mem_map.mp (h.owned e he k hk)
    exact hn x hx
  posted x hx := by
    left
    rcases List.mem_append.mp hx with hx | hx
    · rw [h.settled] at hx
      obtain ⟨y, hy, rfl⟩ := List.mem_map.mp hx
      exact ⟨y.2, List.mem_append_left _ hy, rfl⟩
    · refine ⟨x.2, List.mem_append_right _ hx, ?_⟩
      rw [B.post_of_silent]
      intro e he hk
      exact hothers x hx (h.owned e he x.1 hk)

theorem Posts.trans {n : ℕ} {opened opened' : List β} (h : B.Posts l n opened accounts accounts')
    (h' : B.Posts m (n + opened.length) opened' accounts' accounts'') :
    B.Posts (l ++ m) n (opened ++ opened') accounts accounts'' where
  drawn e he k hk := by
    rw [List.length_append]
    rcases List.mem_append.mp he with he | he
    · have hlt := h.drawn e he k hk
      omega
    · have hlt := h'.drawn e he k hk
      omega
  posted x hx := by
    rcases h'.posted x hx with ⟨b, hb, hx⟩ | ⟨b, hn, hb, hx⟩
    · rcases h.posted _ hb with ⟨a, ha, hxb⟩ | ⟨a, hn, ha, hxb⟩
      · refine .inl ⟨a, ha, ?_⟩
        rw [hx, post_append, ← hxb]
      · refine .inr ⟨a, hn, ?_, ?_⟩
        · rw [List.getElem?_append_left (List.getElem?_eq_some_iff.mp ha).choose]
          exact ha
        · rw [hx, post_append, ← hxb]
    · -- The account is opened later, and no entry before is about it.
      refine .inr ⟨b, by omega, ?_, ?_⟩
      · rw [List.getElem?_append_right (by omega), ← hb]
        congr 1
        omega
      · have hsilent : ∀ e ∈ l, B.owner e ≠ some x.1 := by
          intro e he hk
          have hlt := h.drawn e he x.1 hk
          omega
        rw [hx, post_append, B.post_of_silent hsilent]

/-- A system that keeps its books in every step keeps them over a run. -/
theorem run_posts {σ ι : Type*} (B : Book ε β) {step : σ → ι → σ} (log : σ → List ε)
    (counter : σ → ℕ) (accounts : σ → List (ℕ × β)) (opens : ι → List β) {Inv : σ → Prop}
    (hkeep : ∀ s i, Inv s → Inv (step s i))
    (hstep : ∀ s i, Inv s → counter (step s i) = counter s + (opens i).length ∧
      ∃ l, log (step s i) = log s ++ l ∧
        B.Posts l (counter s) (opens i) (accounts s) (accounts (step s i)))
    {s : σ} (h0 : Inv s) (inputs : List ι) :
    ∃ l, log (Run.run step s inputs) = log s ++ l ∧
      B.Posts l (counter s) (inputs.flatMap opens) (accounts s)
        (accounts (Run.run step s inputs)) := by
  induction inputs generalizing s with
  | nil => exact ⟨[], (List.append_nil _).symm, .of_subset (List.Subset.refl _) _⟩
  | cons i inputs ih =>
    obtain ⟨hcounter, l, hlog, hposts⟩ := hstep s i h0
    obtain ⟨m, hlog', hposts'⟩ := ih (hkeep s i h0)
    rw [hcounter] at hposts'
    refine ⟨l ++ m, ?_, hposts.trans hposts'⟩
    rw [Run.run_cons, hlog', hlog, List.append_assoc]

end Book
end SfuKit.Library.Ledger
