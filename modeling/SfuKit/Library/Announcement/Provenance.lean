import SfuKit.Library.Announcement.Delivery

/-! # Where knowledge comes from

Whatever a member has heard of was owned by somebody else at some time, and a
token keeps its owner for as long as the owner stays.
-/
namespace SfuKit.Library.Announcement
namespace Room

variable {r : Room}

/-- Where every piece of knowledge in the room comes from: `Past n t` says that the
member `n` owned the token `t` at some time. -/
structure Traced (Past : ℕ → ℕ → Prop) (r : Room) : Prop where
  owned : ∀ m ∈ r.members, ∀ t ∈ m.owned, Past m.name t
  known : ∀ m ∈ r.members, ∀ t ∈ m.known, ∃ n, n ≠ m.name ∧ Past n t
  pending : ∀ e ∈ r.pending, Past e.1 e.2

theorem Traced.mono {Past Past' : ℕ → ℕ → Prop} (h : r.Traced Past)
    (himp : ∀ n t, Past n t → Past' n t) : r.Traced Past' where
  owned m hm t ht := himp _ _ (h.owned m hm t ht)
  known m hm t ht := by
    obtain ⟨n, hne, hp⟩ := h.known m hm t ht
    exact ⟨n, hne, himp _ _ hp⟩
  pending e he := himp _ _ (h.pending e he)

theorem owned_step {a : Act} (ha : a.Quiet) {m : Member} (hm : m ∈ r.members) :
    ∃ m' ∈ (r.step a).members, m'.name = m.name ∧ m.owned ⊆ m'.owned := by
  cases a with
  | leave stay => exact ha.elim
  | arrive => exact ⟨m, hm, rfl, fun _ h => h⟩
  | allocate => exact ⟨m, hm, rfl, fun _ h => h⟩
  | depart j => exact ⟨m, hm, rfl, fun _ h => h⟩
  | prepare j =>
    simp only [Room.step]
    split <;> exact ⟨m, hm, rfl, fun _ h => h⟩
  | join j => exact ha.elim
  | deliver =>
    simp only [Room.step]
    split
    · exact ⟨_, List.mem_map_of_mem hm, Member.hear_name .., by rw [Member.hear_owned]; exact fun _ h => h⟩
    · exact ⟨m, hm, rfl, fun _ h => h⟩
  | publish i =>
    simp only [Room.step]
    cases hi : r.members[i]? with
    | none => exact ⟨m, hm, rfl, fun _ h => h⟩
    | some p =>
      obtain ⟨k, hk, rfl⟩ := List.getElem_of_mem hm
      by_cases hik : i = k
      · subst hik
        rw [List.getElem?_eq_getElem hk] at hi
        obtain rfl := Option.some.inj hi
        exact ⟨_, List.mem_set hk _, rfl, fun t ht => List.mem_append_left _ ht⟩
      · refine ⟨r.members[k], ?_, rfl, fun _ h => h⟩
        have hk' : k < (r.members.set i (p.own r.nextToken)).length := by simpa using hk
        have hget : (r.members.set i (p.own r.nextToken))[k] = r.members[k] :=
          List.getElem_set_of_ne hik _ _
        rw [← hget]
        exact List.getElem_mem _

/-- A step keeps knowledge traced, if what is owned after it is in the past too. -/
theorem Traced.step {Past : ℕ → ℕ → Prop} (h : r.Traced Past) (hr : r.WellFormed) (a : Act)
    (hafter : ∀ m ∈ (r.step a).members, ∀ t ∈ m.owned, Past m.name t) :
    (r.step a).Traced Past := by
  refine ⟨hafter, ?_, ?_⟩
  · cases a with
    | arrive => exact h.known
    | allocate => exact h.known
    | depart j => exact h.known
    | prepare j =>
      simp only [Room.step]
      split <;> exact h.known
    | leave stay => exact fun m hm => h.known m ((leave_sublist r.members stay).subset hm)
    | join j =>
      simp only [Room.step]
      cases hj : r.lobby[j]? with
      | none => exact h.known
      | some m =>
        have hm : m ∈ r.lobby := List.mem_of_getElem? hj
        intro x hx t ht
        rcases List.mem_append.mp hx with hx | hx
        · exact h.known x hx t ht
        · rw [List.mem_singleton.mp hx] at ht ⊢
          simp only [Member.learn, hr.lobby_known m hm, List.nil_append] at ht
          obtain ⟨n, hn, hto⟩ := List.mem_flatMap.mp ht
          have hne : n.name ≠ m.name := hr.name_ne hn hm
          exact ⟨n.name, hne, h.owned n hn t hto⟩
    | publish i =>
      simp only [Room.step]
      cases hi : r.members[i]? with
      | none => exact h.known
      | some m =>
        intro x hx t ht
        obtain ⟨x₀, hx₀, hn, hk, -⟩ := mem_set_own hi hx
        rw [hn]
        exact h.known x₀ hx₀ t (hk ▸ ht)
    | deliver =>
      simp only [Room.step]
      cases hp : r.pending with
      | nil => exact h.known
      | cons e rest =>
        obtain ⟨owner, u⟩ := e
        intro x hx t ht
        obtain ⟨m, hm, rfl⟩ := List.mem_map.mp hx
        rw [Member.hear_name]
        unfold Member.hear at ht
        split_ifs at ht with hown
        · exact h.known m hm t ht
        · rcases List.mem_append.mp ht with ht | ht
          · exact h.known m hm t ht
          · rw [List.mem_singleton.mp ht]
            refine ⟨owner, Ne.symm hown, h.pending (owner, u) ?_⟩
            rw [hp]
            exact List.mem_cons_self
  · cases a with
    | arrive => exact h.pending
    | allocate => exact h.pending
    | depart j => exact h.pending
    | leave stay => exact h.pending
    | prepare j =>
      simp only [Room.step]
      split <;> exact h.pending
    | join j =>
      simp only [Room.step]
      split <;> exact h.pending
    | publish i =>
      simp only [Room.step] at hafter ⊢
      cases hi : r.members[i]? with
      | none => exact h.pending
      | some m =>
        rw [hi] at hafter
        intro e he
        rcases List.mem_append.mp he with he | he
        · exact h.pending e he
        · rw [List.mem_singleton.mp he]
          obtain ⟨hlt, -⟩ := List.getElem?_eq_some_iff.mp hi
          exact hafter (m.own r.nextToken) (List.mem_set hlt _) r.nextToken
            (List.mem_append_right _ (List.mem_singleton.mpr rfl))
    | deliver =>
      simp only [Room.step]
      split
      · rename_i owner t rest hp
        exact fun e he => h.pending e (by rw [hp]; exact List.mem_cons_of_mem _ he)
      · exact h.pending

theorem Traced.run {Past : ℕ → ℕ → Prop} {acts : List Act} (hacts : ∀ a ∈ acts, a.Quiet)
    (h : r.Traced Past) (hr : r.WellFormed)
    (hafter : ∀ m ∈ (Run.run Room.step r acts).members, ∀ t ∈ m.owned, Past m.name t) :
    (Run.run Room.step r acts).Traced Past := by
  induction acts generalizing r with
  | nil => exact h
  | cons a acts ih =>
    have hrest : ∀ b ∈ acts, b.Quiet := fun b hb => hacts b (List.mem_cons_of_mem _ hb)
    refine ih hrest (h.step hr a ?_) (hr.step a) hafter
    -- What is owned in between is still owned at the end.
    have hgrow : ∀ (l : List Act) (s : Room), (∀ b ∈ l, b.Quiet) → ∀ m ∈ s.members,
        ∃ m' ∈ (Run.run Room.step s l).members, m'.name = m.name ∧ m.owned ⊆ m'.owned := by
      intro l
      induction l with
      | nil => exact fun s _ m hm => ⟨m, hm, rfl, fun _ h => h⟩
      | cons b l ihl =>
        intro s hl m hm
        obtain ⟨m₁, hm₁, hn₁, ho₁⟩ := owned_step (hl b List.mem_cons_self) hm
        obtain ⟨m₂, hm₂, hn₂, ho₂⟩ :=
          ihl (s.step b) (fun c hc => hl c (List.mem_cons_of_mem _ hc)) m₁ hm₁
        exact ⟨m₂, hm₂, hn₂.trans hn₁, fun _ h => ho₂ (ho₁ h)⟩
    intro m hm t ht
    obtain ⟨m', hm', hn, ho⟩ := hgrow acts (r.step a) hrest m hm
    rw [← hn]
    exact hafter m' hm' t (ho ht)

/-- The token `t` belongs to the member `n`, here or gone, and to nobody else. -/
structure Kept (r : Room) (n t : ℕ) : Prop where
  name_lt : n < r.nextName
  token_lt : t < r.nextToken
  lobby : ∀ m ∈ r.lobby, m.name ≠ n
  still : ∀ m ∈ r.members, m.name = n → t ∈ m.owned
  only : ∀ m ∈ r.everyone, t ∈ m.owned → m.name = n

/-- What a member owns is its own for good. -/
theorem WellFormed.kept (hr : r.WellFormed) {m : Member} (hm : m ∈ r.members) {t : ℕ}
    (ht : t ∈ m.owned) : r.Kept m.name t where
  name_lt := hr.roster.name_lt _ (mem_holdings_of_member hm)
  token_lt := hr.token_lt hm ht
  lobby n hn := (hr.name_ne hm hn).symm
  still n hn hname := by
    have hnames : (r.members.map (·.name)).Nodup := hr.names_nodup
    rwa [List.inj_on_of_nodup_map hnames hn hm hname]
  only n hn htn :=
    hr.roster.owner _ (List.mem_map_of_mem hn) _ (mem_holdings_of_member hm) t htn ht

theorem Kept.step {n t : ℕ} (h : r.Kept n t) (a : Act) : (r.step a).Kept n t := by
  have hmem : ∀ m ∈ r.members, t ∈ m.owned → m.name = n :=
    fun m hm => h.only m (List.mem_append_left _ hm)
  have hlob : ∀ m ∈ r.lobby, t ∉ m.owned :=
    fun m hm ht => h.lobby m hm (h.only m (List.mem_append_right _ hm) ht)
  -- It is enough to trace members and lobby back, and to find no new owner of `t`.
  have hmk : ∀ r' : Room, r.nextName ≤ r'.nextName → r.nextToken ≤ r'.nextToken →
      (∀ m ∈ r'.lobby, m.name ≠ n ∧ t ∉ m.owned) →
      (∀ m ∈ r'.members, (m.name = n → t ∈ m.owned) ∧ (t ∈ m.owned → m.name = n)) →
      r'.Kept n t := by
    intro r' hn ht hl hm
    refine ⟨h.name_lt.trans_le hn, h.token_lt.trans_le ht, fun m hml => (hl m hml).1,
      fun m hmm => (hm m hmm).1, fun m hme hto => ?_⟩
    rcases List.mem_append.mp hme with hmm | hml
    · exact (hm m hmm).2 hto
    · exact absurd hto (hl m hml).2
  have hold : ∀ m ∈ r.members, (m.name = n → t ∈ m.owned) ∧ (t ∈ m.owned → m.name = n) :=
    fun m hm => ⟨h.still m hm, hmem m hm⟩
  have hlold : ∀ m ∈ r.lobby, m.name ≠ n ∧ t ∉ m.owned := fun m hm => ⟨h.lobby m hm, hlob m hm⟩
  have hfresh : ∀ m : Member, t ∈ (m.own r.nextToken).owned ↔ t ∈ m.owned := by
    intro m
    have hne : t ≠ r.nextToken := h.token_lt.ne
    simp [Member.own, hne]
  cases a with
  | arrive =>
    refine hmk _ (Nat.le_succ _) le_rfl (fun m hm => ?_) hold
    rcases List.mem_append.mp hm with hm | hm
    · exact hlold m hm
    · rw [List.mem_singleton.mp hm]
      exact ⟨h.name_lt.ne', by simp⟩
  | allocate => exact hmk _ le_rfl (Nat.le_succ _) hlold hold
  | depart j => exact hmk _ le_rfl le_rfl (fun m hm => hlold m (List.mem_of_mem_eraseIdx hm)) hold
  | leave stay =>
    exact hmk _ le_rfl le_rfl hlold fun m hm => hold m ((leave_sublist r.members stay).subset hm)
  | prepare j =>
    simp only [Room.step]
    cases hj : r.lobby[j]? with
    | none => exact h
    | some p =>
      refine hmk _ le_rfl (Nat.le_succ _) (fun m hm => ?_) hold
      rcases List.mem_or_eq_of_mem_set hm with hm | rfl
      · exact hlold m hm
      · rw [hfresh]
        exact hlold p (List.mem_of_getElem? hj)
  | publish i =>
    simp only [Room.step]
    cases hi : r.members[i]? with
    | none => exact h
    | some p =>
      refine hmk _ le_rfl (Nat.le_succ _) hlold fun m hm => ?_
      rcases List.mem_or_eq_of_mem_set hm with hm | rfl
      · exact hold m hm
      · rw [hfresh]
        exact hold p (List.mem_of_getElem? hi)
  | deliver =>
    simp only [Room.step]
    split
    · refine hmk _ le_rfl le_rfl hlold fun m hm => ?_
      obtain ⟨p, hp, rfl⟩ := List.mem_map.mp hm
      rw [Member.hear_name, Member.hear_owned]
      exact hold p hp
    · exact h
  | join j =>
    simp only [Room.step]
    cases hj : r.lobby[j]? with
    | none => exact h
    | some p =>
      refine hmk _ le_rfl le_rfl (fun m hm => hlold m (List.mem_of_mem_eraseIdx hm)) fun m hm => ?_
      rcases List.mem_append.mp hm with hm | hm
      · exact hold m hm
      · obtain ⟨hname, hown⟩ := hlold p (List.mem_of_getElem? hj)
        rw [List.mem_singleton.mp hm]
        exact ⟨fun hn => absurd hn hname, fun ht => absurd ht hown⟩

theorem Kept.run {n t : ℕ} (h : r.Kept n t) (acts : List Act) :
    (Run.run Room.step r acts).Kept n t := by
  have hstep : ∀ (s : Room) (a : Act), s.Kept n t → (s.step a).Kept n t := fun _ a h => h.step a
  exact Run.invariant_all hstep acts h

end Room
end SfuKit.Library.Announcement
