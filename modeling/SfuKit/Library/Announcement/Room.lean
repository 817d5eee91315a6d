import SfuKit.Library.Run

/-! # Announcing tokens to everybody else

Members of a room own tokens, and each is to learn the tokens of the others. A
newcomer learns what is owned when it joins; a new token goes through a queue to
everybody but its owner. Peers wait in a lobby before they join, where they may
already come to own tokens. Names and tokens are drawn from counters.
-/
namespace SfuKit.Library.Announcement

structure Member where
  name : ℕ
  owned : List ℕ
  known : List ℕ

structure Room where
  members : List Member
  lobby : List Member
  /-- Announcements under way: the owner and the token. -/
  pending : List (ℕ × ℕ)
  nextName : ℕ
  nextToken : ℕ

inductive Act where
  | arrive
  | prepare (j : ℕ)
  | depart (j : ℕ)
  | join (j : ℕ)
  | publish (i : ℕ)
  | allocate
  | deliver
  | leave (stay : List Bool)

/-- A step that neither lets a peer join nor takes a member away. -/
def Act.Quiet : Act → Prop
  | .join _ => False
  | .leave _ => False
  | _ => True

namespace Member

def own (m : Member) (t : ℕ) : Member := { m with owned := m.owned ++ [t] }

def learn (m : Member) (ts : List ℕ) : Member := { m with known := m.known ++ ts }

def hear (owner t : ℕ) (m : Member) : Member := if m.name = owner then m else m.learn [t]

@[simp] theorem hear_name (owner t : ℕ) (m : Member) : (m.hear owner t).name = m.name := by
  unfold hear; split_ifs <;> rfl

@[simp] theorem hear_owned (owner t : ℕ) (m : Member) : (m.hear owner t).owned = m.owned := by
  unfold hear; split_ifs <;> rfl

end Member

namespace Room

def tokens (r : Room) : List ℕ := r.members.flatMap (·.owned)

def everyone (r : Room) : List Member := r.members ++ r.lobby

def step (r : Room) : Act → Room
  | .arrive => { r with lobby := r.lobby ++ [⟨r.nextName, [], []⟩], nextName := r.nextName + 1 }
  | .prepare j =>
    match r.lobby[j]? with
    | some m => { r with lobby := r.lobby.set j (m.own r.nextToken), nextToken := r.nextToken + 1 }
    | none => r
  | .depart j => { r with lobby := r.lobby.eraseIdx j }
  | .join j =>
    match r.lobby[j]? with
    | some m => { r with members := r.members ++ [m.learn r.tokens], lobby := r.lobby.eraseIdx j }
    | none => r
  | .publish i =>
    match r.members[i]? with
    | some m =>
      { r with members := r.members.set i (m.own r.nextToken)
               pending := r.pending ++ [(m.name, r.nextToken)]
               nextToken := r.nextToken + 1 }
    | none => r
  | .allocate => { r with nextToken := r.nextToken + 1 }
  | .deliver =>
    match r.pending with
    | (owner, t) :: rest => { r with members := r.members.map (Member.hear owner t), pending := rest }
    | [] => r
  | .leave stay => { r with members := ((r.members.zip stay).filter (·.2)).map (·.1) }

def holdings (r : Room) : List (ℕ × List ℕ) := r.everyone.map fun m => (m.name, m.owned)

def empty : Room := ⟨[], [], [], 0, 0⟩

end Room

/-- Names are unique and below their counter, and so are tokens. -/
structure Roster (h : List (ℕ × List ℕ)) (nextName nextToken : ℕ) : Prop where
  names : (h.map (·.1)).Nodup
  name_lt : ∀ e ∈ h, e.1 < nextName
  owned : ∀ e ∈ h, e.2.Nodup
  owner : ∀ e ∈ h, ∀ e' ∈ h, ∀ t, t ∈ e.2 → t ∈ e'.2 → e.1 = e'.1
  owned_lt : ∀ e ∈ h, ∀ t ∈ e.2, t < nextToken

namespace Roster
variable {h h' : List (ℕ × List ℕ)} {nextName nextToken : ℕ}

theorem of_subperm (hr : Roster h nextName nextToken) (hs : h'.Subperm h) :
    Roster h' nextName nextToken where
  names := by
    obtain ⟨l, hp, hsub⟩ := hs
    exact (hp.map _).nodup_iff.mp ((hsub.map _).nodup hr.names)
  name_lt e he := hr.name_lt e (hs.subset he)
  owned e he := hr.owned e (hs.subset he)
  owner e he e' he' := hr.owner e (hs.subset he) e' (hs.subset he')
  owned_lt e he := hr.owned_lt e (hs.subset he)

theorem arrive (hr : Roster h nextName nextToken) :
    Roster (h ++ [(nextName, [])]) (nextName + 1) nextToken where
  names := by
    rw [List.map_append, List.nodup_append]
    refine ⟨hr.names, List.nodup_singleton _, ?_⟩
    intro a ha b hb
    obtain ⟨e, he, rfl⟩ := List.mem_map.mp ha
    have hlt := hr.name_lt e he
    simp only [List.map_cons, List.map_nil, List.mem_singleton] at hb
    omega
  name_lt e he := by
    rcases List.mem_append.mp he with he | he
    · have hlt := hr.name_lt e he
      omega
    · rw [List.mem_singleton.mp he]
      exact Nat.lt_succ_self _
  owned e he := by
    rcases List.mem_append.mp he with he | he
    · exact hr.owned e he
    · rw [List.mem_singleton.mp he]
      exact List.nodup_nil
  owner e he e' he' t ht ht' := by
    rcases List.mem_append.mp he with he | he
    · rcases List.mem_append.mp he' with he' | he'
      · exact hr.owner e he e' he' t ht ht'
      · rw [List.mem_singleton.mp he'] at ht'
        cases ht'
    · rw [List.mem_singleton.mp he] at ht
      cases ht
  owned_lt e he t ht := by
    rcases List.mem_append.mp he with he | he
    · exact hr.owned_lt e he t ht
    · rw [List.mem_singleton.mp he] at ht
      cases ht

theorem own (hr : Roster h nextName nextToken) {i n : ℕ} {o : List ℕ} (hi : h[i]? = some (n, o)) :
    Roster (h.set i (n, o ++ [nextToken])) nextName (nextToken + 1) := by
  have hmem : (n, o) ∈ h := List.mem_of_getElem? hi
  -- Every entry of the new roster has an old one behind it.
  have hback : ∀ e ∈ h.set i (n, o ++ [nextToken]), ∃ e₀ ∈ h, e.1 = e₀.1 ∧
      (e.2 = e₀.2 ∨ e = (n, o ++ [nextToken]) ∧ e₀ = (n, o)) := by
    intro e he
    rcases List.mem_or_eq_of_mem_set he with he | rfl
    · exact ⟨e, he, rfl, .inl rfl⟩
    · exact ⟨(n, o), hmem, rfl, .inr ⟨rfl, rfl⟩⟩
  have hfresh : ∀ e ∈ h, nextToken ∉ e.2 := fun e he ht =>
    absurd (hr.owned_lt e he _ ht) (lt_irrefl _)
  refine ⟨?_, ?_, ?_, ?_, ?_⟩
  · rw [List.map_set]
    have hn : (h.map (·.1)).set i n = h.map (·.1) := by
      obtain ⟨hlt, he⟩ := List.getElem?_eq_some_iff.mp hi
      have hlt' : i < (h.map (·.1)).length := by simpa using hlt
      have hget : (h.map (·.1))[i] = n := by rw [List.getElem_map, he]
      rw [← hget, List.set_getElem_self]
    rw [hn]
    exact hr.names
  · intro e he
    obtain ⟨e₀, he₀, hname, -⟩ := hback e he
    rw [hname]
    exact hr.name_lt e₀ he₀
  · intro e he
    obtain ⟨e₀, he₀, -, ho | ⟨rfl, rfl⟩⟩ := hback e he
    · rw [ho]
      exact hr.owned e₀ he₀
    · exact (hr.owned _ he₀).append (List.nodup_singleton _)
        (List.disjoint_singleton.mpr (hfresh _ he₀))
  · intro e he e' he' t ht ht'
    obtain ⟨e₀, he₀, hname, ho⟩ := hback e he
    obtain ⟨e₀', he₀', hname', ho'⟩ := hback e' he'
    rw [hname, hname']
    by_cases hn : t = nextToken
    · subst hn
      have h1 : e₀ = (n, o) := by
        rcases ho with ho | ⟨-, ho⟩
        · exact absurd (ho ▸ ht) (hfresh e₀ he₀)
        · exact ho
      have h2 : e₀' = (n, o) := by
        rcases ho' with ho' | ⟨-, ho'⟩
        · exact absurd (ho' ▸ ht') (hfresh e₀' he₀')
        · exact ho'
      rw [h1, h2]
    · have hold : ∀ f f₀ : ℕ × List ℕ, (f.2 = f₀.2 ∨ f = (n, o ++ [nextToken]) ∧ f₀ = (n, o)) →
          t ∈ f.2 → t ∈ f₀.2 := by
        rintro f f₀ (hf | ⟨rfl, rfl⟩) hm
        · rwa [← hf]
        · simpa [hn] using hm
      exact hr.owner e₀ he₀ e₀' he₀' t (hold e e₀ ho ht) (hold e' e₀' ho' ht')
  · intro e he t ht
    obtain ⟨e₀, he₀, -, ho | ⟨rfl, rfl⟩⟩ := hback e he
    · exact Nat.lt_succ_of_lt (hr.owned_lt e₀ he₀ t (ho ▸ ht))
    · rcases List.mem_append.mp ht with ht | ht
      · exact Nat.lt_succ_of_lt (hr.owned_lt _ he₀ t ht)
      · rw [List.mem_singleton.mp ht]
        exact Nat.lt_succ_self _

end Roster

namespace Room

/-- The roster, and what has been heard of: only tokens that exist, pending ones
under their owner's name, and none from the lobby. -/
structure WellFormed (r : Room) : Prop where
  roster : Roster r.holdings r.nextName r.nextToken
  known_lt : ∀ m ∈ r.members, ∀ t ∈ m.known, t < r.nextToken
  pending_lt : ∀ e ∈ r.pending, e.2 < r.nextToken
  pending_owner : ∀ e ∈ r.pending, ∀ m ∈ r.members, e.2 ∈ m.owned → m.name = e.1
  lobby_known : ∀ m ∈ r.lobby, m.known = []
  lobby_unheard : ∀ m ∈ r.lobby, ∀ t ∈ m.owned,
    (∀ s ∈ r.members, t ∉ s.known) ∧ ∀ e ∈ r.pending, e.2 ≠ t

theorem wellFormed_empty : empty.WellFormed where
  roster := by
    constructor <;> simp [holdings, everyone, empty]
  known_lt := by simp [empty]
  pending_lt := by simp [empty]
  pending_owner := by simp [empty]
  lobby_known := by simp [empty]
  lobby_unheard := by simp [empty]

variable {r : Room}

theorem mem_holdings_of_member {m : Member} (hm : m ∈ r.members) : (m.name, m.owned) ∈ r.holdings :=
  List.mem_map_of_mem (List.mem_append_left _ hm)

theorem mem_holdings_of_lobby {m : Member} (hm : m ∈ r.lobby) : (m.name, m.owned) ∈ r.holdings :=
  List.mem_map_of_mem (List.mem_append_right _ hm)

theorem WellFormed.name_ne (hr : r.WellFormed) {m n : Member} (hm : m ∈ r.members)
    (hn : n ∈ r.lobby) : m.name ≠ n.name := by
  have hnames := hr.roster.names
  rw [holdings, everyone, List.map_append, List.map_append, List.nodup_append] at hnames
  apply hnames.2.2
  · simpa using ⟨m, hm, rfl⟩
  · simpa using ⟨n, hn, rfl⟩

theorem WellFormed.token_lt (hr : r.WellFormed) {m : Member} (hm : m ∈ r.members) {t : ℕ}
    (ht : t ∈ m.owned) : t < r.nextToken :=
  hr.roster.owned_lt _ (mem_holdings_of_member hm) t ht

theorem WellFormed.names_nodup (hr : r.WellFormed) : (r.members.map (·.name)).Nodup := by
  have h := hr.roster.names
  rw [holdings, everyone, List.map_append, List.map_append, List.nodup_append] at h
  have h1 := h.1
  rwa [List.map_map] at h1

theorem WellFormed.tokens_nodup (hr : r.WellFormed) : r.tokens.Nodup := by
  rw [tokens, List.nodup_flatMap]
  refine ⟨fun m hm => hr.roster.owned _ (mem_holdings_of_member hm), ?_⟩
  refine (List.pairwise_map.mp hr.names_nodup).imp_of_mem fun {m n} hm hn hne => ?_
  intro t ht ht'
  exact hne (hr.roster.owner _ (mem_holdings_of_member hm) _ (mem_holdings_of_member hn) t ht ht')

theorem WellFormed.lt_of_mem_tokens (hr : r.WellFormed) {t : ℕ} (ht : t ∈ r.tokens) :
    t < r.nextToken := by
  obtain ⟨m, hm, hto⟩ := List.mem_flatMap.mp ht
  exact hr.token_lt hm hto

section Step
variable (hr : r.WellFormed)
include hr

theorem WellFormed.arrive : (r.step .arrive).WellFormed where
  roster := by
    have h := hr.roster.arrive
    simpa [step, holdings, everyone] using h
  known_lt := hr.known_lt
  pending_lt := hr.pending_lt
  pending_owner := hr.pending_owner
  lobby_known m hm := by
    rcases List.mem_append.mp hm with hm | hm
    · exact hr.lobby_known m hm
    · rw [List.mem_singleton.mp hm]
  lobby_unheard m hm t ht := by
    rcases List.mem_append.mp hm with hm | hm
    · exact hr.lobby_unheard m hm t ht
    · rw [List.mem_singleton.mp hm] at ht
      cases ht

theorem WellFormed.prepare (j : ℕ) : (r.step (.prepare j)).WellFormed := by
  unfold step
  dsimp only
  cases hj : r.lobby[j]? with
  | none => exact hr
  | some m =>
    have hm : m ∈ r.lobby := List.mem_of_getElem? hj
    have hold : ∀ x ∈ r.lobby.set j (m.own r.nextToken), x ∈ r.lobby ∨ x = m.own r.nextToken :=
      fun x hx => List.mem_or_eq_of_mem_set hx
    constructor
    · have hget : r.holdings[r.members.length + j]? = some (m.name, m.owned) := by
        rw [holdings, everyone, List.map_append, List.getElem?_append_right (by simp)]
        simp [hj]
      have h := hr.roster.own hget
      simpa [holdings, everyone, Member.own, List.set_append, List.map_set] using h
    · exact fun n hn t ht => Nat.lt_succ_of_lt (hr.known_lt n hn t ht)
    · exact fun e he => Nat.lt_succ_of_lt (hr.pending_lt e he)
    · exact hr.pending_owner
    · intro x hx
      rcases hold x hx with hx | rfl
      · exact hr.lobby_known x hx
      · exact hr.lobby_known m hm
    · intro x hx t ht
      rcases hold x hx with hx | rfl
      · exact hr.lobby_unheard x hx t ht
      · rcases List.mem_append.mp ht with ht | ht
        · exact hr.lobby_unheard m hm t ht
        · rw [List.mem_singleton.mp ht]
          refine ⟨fun s hs hk => lt_irrefl _ (hr.known_lt s hs _ hk), fun e he heq => ?_⟩
          have hlt := hr.pending_lt e he
          omega

theorem WellFormed.depart (j : ℕ) : (r.step (.depart j)).WellFormed where
  roster := hr.roster.of_subperm
    (((List.Sublist.refl _).append (List.eraseIdx_sublist r.lobby j)).map _).subperm
  known_lt := hr.known_lt
  pending_lt := hr.pending_lt
  pending_owner := hr.pending_owner
  lobby_known m hm := hr.lobby_known m (List.mem_of_mem_eraseIdx hm)
  lobby_unheard m hm := hr.lobby_unheard m (List.mem_of_mem_eraseIdx hm)

theorem WellFormed.join (j : ℕ) : (r.step (.join j)).WellFormed := by
  unfold step
  dsimp only
  cases hj : r.lobby[j]? with
  | none => exact hr
  | some m =>
    have hm : m ∈ r.lobby := List.mem_of_getElem? hj
    have hknown : (m.learn r.tokens).known = r.tokens := by
      simp [Member.learn, hr.lobby_known m hm]
    constructor
    · apply hr.roster.of_subperm
      obtain ⟨hlt, rfl⟩ := List.getElem?_eq_some_iff.mp hj
      have hp := (List.getElem_cons_eraseIdx_perm hlt).map fun m : Member => (m.name, m.owned)
      have hp' := hp.append_left (r.members.map fun m => (m.name, m.owned))
      refine List.Perm.subperm ?_
      simpa [holdings, everyone, Member.learn] using hp'
    · intro n hn t ht
      rcases List.mem_append.mp hn with hn | hn
      · exact hr.known_lt n hn t ht
      · rw [List.mem_singleton.mp hn, hknown] at ht
        exact hr.lt_of_mem_tokens ht
    · exact hr.pending_lt
    · intro e he n hn ht
      rcases List.mem_append.mp hn with hn | hn
      · exact hr.pending_owner e he n hn ht
      · rw [List.mem_singleton.mp hn] at ht
        exact absurd rfl ((hr.lobby_unheard m hm _ ht).2 e he)
    · exact fun x hx => hr.lobby_known x (List.mem_of_mem_eraseIdx hx)
    · intro x hx t ht
      have hx := List.mem_of_mem_eraseIdx hx
      refine ⟨fun s hs => ?_, (hr.lobby_unheard x hx t ht).2⟩
      rcases List.mem_append.mp hs with hs | hs
      · exact (hr.lobby_unheard x hx t ht).1 s hs
      · rw [List.mem_singleton.mp hs, hknown]
        intro hto
        obtain ⟨n, hn, hto⟩ := List.mem_flatMap.mp hto
        exact hr.name_ne hn hx (hr.roster.owner _ (mem_holdings_of_member hn) _
          (mem_holdings_of_lobby hx) t hto ht)

theorem WellFormed.publish (i : ℕ) : (r.step (.publish i)).WellFormed := by
  unfold step
  dsimp only
  cases hi : r.members[i]? with
  | none => exact hr
  | some m =>
    have hm : m ∈ r.members := List.mem_of_getElem? hi
    have hold : ∀ x ∈ r.members.set i (m.own r.nextToken), x ∈ r.members ∨ x = m.own r.nextToken :=
      fun x hx => List.mem_or_eq_of_mem_set hx
    have hpend : ∀ e ∈ r.pending ++ [(m.name, r.nextToken)],
        e ∈ r.pending ∨ e = (m.name, r.nextToken) := by simp
    constructor
    · have hget : r.holdings[i]? = some (m.name, m.owned) := by
        obtain ⟨hlt, rfl⟩ := List.getElem?_eq_some_iff.mp hi
        simp [holdings, everyone, hlt, List.getElem?_append]
      have h := hr.roster.own hget
      obtain ⟨hlt, -⟩ := List.getElem?_eq_some_iff.mp hi
      simpa [holdings, everyone, Member.own, List.set_append, List.map_set, hlt] using h
    · intro x hx t ht
      rcases hold x hx with hx | rfl
      · exact Nat.lt_succ_of_lt (hr.known_lt x hx t ht)
      · exact Nat.lt_succ_of_lt (hr.known_lt m hm t ht)
    · intro e he
      rcases hpend e he with he | rfl
      · exact Nat.lt_succ_of_lt (hr.pending_lt e he)
      · exact Nat.lt_succ_self _
    · intro e he x hx ht
      rcases hpend e he with he | rfl
      · rcases hold x hx with hx | rfl
        · exact hr.pending_owner e he x hx ht
        · rcases List.mem_append.mp ht with ht | ht
          · exact hr.pending_owner e he m hm ht
          · have hlt := hr.pending_lt e he
            have heq := List.mem_singleton.mp ht
            omega
      · rcases hold x hx with hx | rfl
        · exact absurd (hr.token_lt hx ht) (lt_irrefl _)
        · rfl
    · exact hr.lobby_known
    · intro x hx t ht
      obtain ⟨hknown, hpending⟩ := hr.lobby_unheard x hx t ht
      refine ⟨fun s hs => ?_, fun e he => ?_⟩
      · rcases hold s hs with hs | rfl
        · exact hknown s hs
        · exact hknown m hm
      · rcases hpend e he with he | rfl
        · exact hpending e he
        · exact (hr.roster.owned_lt _ (mem_holdings_of_lobby hx) t ht).ne'

theorem WellFormed.allocate : (r.step .allocate).WellFormed where
  roster := { hr.roster with
    owned_lt := fun e he t ht => Nat.lt_succ_of_lt (hr.roster.owned_lt e he t ht) }
  known_lt m hm t ht := Nat.lt_succ_of_lt (hr.known_lt m hm t ht)
  pending_lt e he := Nat.lt_succ_of_lt (hr.pending_lt e he)
  pending_owner := hr.pending_owner
  lobby_known := hr.lobby_known
  lobby_unheard := hr.lobby_unheard

theorem WellFormed.deliver : (r.step .deliver).WellFormed := by
  unfold step
  dsimp only
  cases hp : r.pending with
  | nil => exact hr
  | cons e rest =>
    obtain ⟨owner, t⟩ := e
    have hfirst : (owner, t) ∈ r.pending := by rw [hp]; exact List.mem_cons_self
    have hrest : ∀ e ∈ rest, e ∈ r.pending := fun e he => by rw [hp]; exact List.mem_cons_of_mem _ he
    have hknown : ∀ m ∈ r.members, ∀ u ∈ (m.hear owner t).known, u ∈ m.known ∨ u = t := by
      intro m _ u hu
      unfold Member.hear at hu
      split_ifs at hu
      · exact .inl hu
      · simpa [Member.learn] using hu
    constructor
    · have hh : ({ r with members := r.members.map (Member.hear owner t), pending := rest }
          : Room).holdings = r.holdings := by
        simp [holdings, everyone]
      rw [hh]
      exact hr.roster
    · intro x hx u hu
      obtain ⟨m, hm, rfl⟩ := List.mem_map.mp hx
      rcases hknown m hm u hu with hu | rfl
      · exact hr.known_lt m hm u hu
      · exact hr.pending_lt _ hfirst
    · exact fun e he => hr.pending_lt e (hrest e he)
    · intro e he x hx hu
      obtain ⟨m, hm, rfl⟩ := List.mem_map.mp hx
      rw [Member.hear_owned] at hu
      rw [Member.hear_name]
      exact hr.pending_owner e (hrest e he) m hm hu
    · exact hr.lobby_known
    · intro x hx u hu
      obtain ⟨hk, hpd⟩ := hr.lobby_unheard x hx u hu
      refine ⟨fun s hs hus => ?_, fun e he => hpd e (hrest e he)⟩
      obtain ⟨m, hm, rfl⟩ := List.mem_map.mp hs
      rcases hknown m hm u hus with hus | rfl
      · exact hk m hm hus
      · exact hpd _ hfirst rfl

end Step

theorem leave_sublist (l : List Member) (stay : List Bool) :
    (((l.zip stay).filter (·.2)).map (·.1)).Sublist l := by
  induction l generalizing stay with
  | nil => simp
  | cons m l ih =>
    cases stay with
    | nil => simp
    | cons b stay =>
      cases b with
      | true => simpa using (ih stay).cons_cons m
      | false => simpa using (ih stay).cons m

theorem WellFormed.leave (hr : r.WellFormed) (stay : List Bool) :
    (r.step (.leave stay)).WellFormed := by
  have hsub := leave_sublist r.members stay
  exact {
    roster := hr.roster.of_subperm ((hsub.append (List.Sublist.refl _)).map _).subperm
    known_lt := fun m hm => hr.known_lt m (hsub.subset hm)
    pending_lt := hr.pending_lt
    pending_owner := fun e he m hm => hr.pending_owner e he m (hsub.subset hm)
    lobby_known := hr.lobby_known
    lobby_unheard := fun m hm t ht =>
      ⟨fun s hs => (hr.lobby_unheard m hm t ht).1 s (hsub.subset hs), (hr.lobby_unheard m hm t ht).2⟩ }

/-- Every step keeps a room well-formed. -/
theorem WellFormed.step (hr : r.WellFormed) (a : Act) : (r.step a).WellFormed := by
  cases a with
  | arrive => exact hr.arrive
  | prepare j => exact hr.prepare j
  | depart j => exact hr.depart j
  | join j => exact hr.join j
  | publish i => exact hr.publish i
  | allocate => exact hr.allocate
  | deliver => exact hr.deliver
  | leave stay => exact hr.leave stay

theorem WellFormed.run (hr : r.WellFormed) (acts : List Act) :
    (Run.run Room.step r acts).WellFormed := by
  have hstep : ∀ (s : Room) (a : Act), s.WellFormed → (s.step a).WellFormed :=
    fun _ a h => h.step a
  exact Run.invariant_all hstep acts hr

end Room
end SfuKit.Library.Announcement
