import SfuKit.Library.Announcement.Room

/-! # Who hears of a token, and how often

If no peer joins while an announcement is under way, nobody hears of a token
twice; if no peer joins others with a token in hand, everybody hears of every token.
-/
namespace SfuKit.Library.Announcement
namespace Room

/-- How often `m` has heard of `t`, or is still going to. -/
def copies (r : Room) (m : Member) (t : ℕ) : ℕ :=
  m.known.count t + (r.pending.map (·.2)).count t

/-- Nobody hears twice of a token of somebody else. -/
def AtMostOnce (r : Room) : Prop :=
  ∀ s ∈ r.members, ∀ p ∈ r.members, s.name ≠ p.name → ∀ t ∈ p.owned, r.copies s t ≤ 1

/-- Everybody hears of every token of somebody else. -/
def AtLeastOnce (r : Room) : Prop :=
  ∀ s ∈ r.members, ∀ p ∈ r.members, s.name ≠ p.name → ∀ t ∈ p.owned, 1 ≤ r.copies s t

variable {r : Room}

/-- No token of a member is still being announced. -/
def Settled (r : Room) : Prop := ∀ m ∈ r.members, ∀ t ∈ m.owned, ∀ e ∈ r.pending, e.2 ≠ t

/-- Peers join only while no announcement is under way. -/
def JoinsSettled (r : Room) : Act → Prop
  | .join _ => r.Settled
  | _ => True

/-- Peers join before they own anything, unless they are the first. -/
def JoinsEmptyHanded (r : Room) : Act → Prop
  | .join j => ∀ m, r.lobby[j]? = some m → m.owned = [] ∨ r.members = []
  | _ => True

theorem joinsSettled_of_quiet {a : Act} (ha : a.Quiet) : r.JoinsSettled a := by
  cases a <;> trivial

theorem joinsEmptyHanded_of_quiet {a : Act} (ha : a.Quiet) : r.JoinsEmptyHanded a := by
  cases a <;> trivial

section Copies
variable (hr : r.WellFormed)
include hr

theorem WellFormed.count_nextToken {m : Member} (hm : m ∈ r.members) :
    m.known.count r.nextToken = 0 :=
  List.count_eq_zero.mpr fun h => lt_irrefl _ (hr.known_lt m hm _ h)

theorem WellFormed.pending_count_nextToken :
    (r.pending.map (·.2)).count r.nextToken = 0 := by
  refine List.count_eq_zero.mpr fun h => ?_
  obtain ⟨e, he, heq⟩ := List.mem_map.mp h
  exact absurd (hr.pending_lt e he) (by rw [heq]; exact lt_irrefl _)

/-- A publication changes the copies of no other token, and announces the new one once. -/
theorem WellFormed.copies_publish {s : Member} (hs : s ∈ r.members) (owner t : ℕ) :
    s.known.count t + ((r.pending ++ [(owner, r.nextToken)]).map (·.2)).count t =
      if t = r.nextToken then 1 else r.copies s t := by
  rw [List.map_append, List.count_append, List.map_singleton, ← Nat.add_assoc]
  by_cases h : t = r.nextToken
  · subst h
    rw [if_pos rfl, hr.count_nextToken hs, hr.pending_count_nextToken, List.count_singleton_self]
  · rw [if_neg h, List.count_singleton, if_neg (by simpa using Ne.symm h), Nat.add_zero]
    rfl

end Copies

theorem mem_set_own {i t : ℕ} {m x : Member} (hi : r.members[i]? = some m)
    (hx : x ∈ r.members.set i (m.own t)) :
    ∃ x₀ ∈ r.members, x.name = x₀.name ∧ x.known = x₀.known ∧ ∀ u ∈ x.owned, u ∈ x₀.owned ∨ u = t := by
  rcases List.mem_or_eq_of_mem_set hx with hx | rfl
  · exact ⟨x, hx, rfl, rfl, fun u hu => .inl hu⟩
  · refine ⟨m, List.mem_of_getElem? hi, rfl, rfl, fun u hu => ?_⟩
    simpa [Member.own] using hu

/-- Hearing a pending announcement moves a copy, unless it is one's own. -/
theorem copies_deliver (m : Member) (owner t u : ℕ) (rest : List (ℕ × ℕ)) :
    (m.hear owner t).known.count u + (rest.map (·.2)).count u +
        (if m.name = owner ∧ u = t then 1 else 0) =
      m.known.count u + (((owner, t) :: rest).map (·.2)).count u := by
  unfold Member.hear
  rw [List.map_cons, List.count_cons]
  by_cases hn : m.name = owner
  · by_cases hu : u = t
    · simp [hn, hu, Nat.add_assoc]
    · simp [hn, hu, Ne.symm hu]
  · by_cases hu : u = t
    · simp only [hn, if_false, false_and, Member.learn, List.count_append, hu, List.count_singleton,
        beq_self_eq_true, if_true]
      omega
    · simp [hn, hu, Ne.symm hu, Member.learn]

/-- A step keeps everybody from hearing twice, if nobody joins during an announcement. -/
theorem AtMostOnce.step (h : r.AtMostOnce) (hr : r.WellFormed) {a : Act} (ha : r.JoinsSettled a) :
    (r.step a).AtMostOnce := by
  cases a with
  | arrive => exact h
  | allocate => exact h
  | depart j => exact h
  | prepare j =>
    simp only [Room.step]
    split <;> exact h
  | leave stay =>
    have hsub := leave_sublist r.members stay
    exact fun s hs p hp => h s (hsub.subset hs) p (hsub.subset hp)
  | publish i =>
    simp only [Room.step]
    cases hi : r.members[i]? with
    | none => exact h
    | some m =>
      intro s hs p hp hne t ht
      obtain ⟨s₀, hs₀, hsn, hsk, -⟩ := mem_set_own hi hs
      obtain ⟨p₀, hp₀, hpn, -, hpo⟩ := mem_set_own hi hp
      simp only [copies, hsk]
      rw [hr.copies_publish hs₀]
      split_ifs with hnew
      · exact le_refl 1
      · have ht₀ : t ∈ p₀.owned := (hpo t ht).resolve_right hnew
        exact h s₀ hs₀ p₀ hp₀ (by rwa [← hsn, ← hpn]) t ht₀
  | deliver =>
    simp only [Room.step]
    cases hp : r.pending with
    | nil => exact h
    | cons e rest =>
      obtain ⟨owner, u⟩ := e
      intro s hs p hp' hne t ht
      obtain ⟨s₀, hs₀, rfl⟩ := List.mem_map.mp hs
      obtain ⟨p₀, hp₀, rfl⟩ := List.mem_map.mp hp'
      rw [Member.hear_name, Member.hear_name] at hne
      rw [Member.hear_owned] at ht
      have hle := h s₀ hs₀ p₀ hp₀ hne t ht
      have hmove := copies_deliver s₀ owner u t rest
      rw [copies, hp] at hle
      simp only [copies]
      omega
  | join j =>
    simp only [Room.step]
    cases hj : r.lobby[j]? with
    | none => exact h
    | some m =>
      have hm : m ∈ r.lobby := List.mem_of_getElem? hj
      intro s hs p hp hne t ht
      rcases List.mem_append.mp hs with hs | hs <;> rcases List.mem_append.mp hp with hp | hp
      · exact h s hs p hp hne t ht
      · rw [List.mem_singleton.mp hp] at ht
        obtain ⟨hk, hpd⟩ := hr.lobby_unheard m hm t ht
        have h1 : s.known.count t = 0 := List.count_eq_zero.mpr (hk s hs)
        have h2 : (r.pending.map (·.2)).count t = 0 := by
          refine List.count_eq_zero.mpr fun hin => ?_
          obtain ⟨e, he, heq⟩ := List.mem_map.mp hin
          exact hpd e he heq
        simp only [copies]
        omega
      · rw [List.mem_singleton.mp hs]
        have h1 : (m.learn r.tokens).known.count t ≤ 1 := by
          simp only [Member.learn, hr.lobby_known m hm, List.nil_append]
          exact List.nodup_iff_count_le_one.mp hr.tokens_nodup t
        have h2 : (r.pending.map (·.2)).count t = 0 := by
          refine List.count_eq_zero.mpr fun hin => ?_
          obtain ⟨e, he, heq⟩ := List.mem_map.mp hin
          exact ha p hp t ht e he heq
        simp only [copies]
        omega
      · rw [List.mem_singleton.mp hs, List.mem_singleton.mp hp] at hne
        exact absurd rfl hne

/-- A step keeps everybody informed, if nobody joins others with a token in hand. -/
theorem AtLeastOnce.step (h : r.AtLeastOnce) (hr : r.WellFormed) {a : Act}
    (ha : r.JoinsEmptyHanded a) : (r.step a).AtLeastOnce := by
  cases a with
  | arrive => exact h
  | allocate => exact h
  | depart j => exact h
  | prepare j =>
    simp only [Room.step]
    split <;> exact h
  | leave stay =>
    have hsub := leave_sublist r.members stay
    exact fun s hs p hp => h s (hsub.subset hs) p (hsub.subset hp)
  | publish i =>
    simp only [Room.step]
    cases hi : r.members[i]? with
    | none => exact h
    | some m =>
      intro s hs p hp hne t ht
      obtain ⟨s₀, hs₀, hsn, hsk, -⟩ := mem_set_own hi hs
      obtain ⟨p₀, hp₀, hpn, -, hpo⟩ := mem_set_own hi hp
      simp only [copies, hsk]
      rw [hr.copies_publish hs₀]
      split_ifs with hnew
      · exact le_refl 1
      · have ht₀ : t ∈ p₀.owned := (hpo t ht).resolve_right hnew
        exact h s₀ hs₀ p₀ hp₀ (by rwa [← hsn, ← hpn]) t ht₀
  | deliver =>
    simp only [Room.step]
    cases hp : r.pending with
    | nil => exact h
    | cons e rest =>
      obtain ⟨owner, u⟩ := e
      intro s hs p hp' hne t ht
      obtain ⟨s₀, hs₀, rfl⟩ := List.mem_map.mp hs
      obtain ⟨p₀, hp₀, rfl⟩ := List.mem_map.mp hp'
      rw [Member.hear_name, Member.hear_name] at hne
      rw [Member.hear_owned] at ht
      have hle := h s₀ hs₀ p₀ hp₀ hne t ht
      have hmove := copies_deliver s₀ owner u t rest
      -- The owner misses its own announcement, which is not about a token of `p₀`.
      have hskip : ¬ (s₀.name = owner ∧ t = u) := by
        rintro ⟨hown, rfl⟩
        have hpown := hr.pending_owner (owner, t) (by rw [hp]; exact List.mem_cons_self) p₀ hp₀ ht
        exact hne (hown.trans hpown.symm)
      rw [if_neg hskip] at hmove
      rw [copies, hp] at hle
      simp only [copies]
      omega
  | join j =>
    simp only [Room.step]
    cases hj : r.lobby[j]? with
    | none => exact h
    | some m =>
      have hm : m ∈ r.lobby := List.mem_of_getElem? hj
      intro s hs p hp hne t ht
      rcases List.mem_append.mp hp with hp | hp
      · rcases List.mem_append.mp hs with hs | hs
        · exact h s hs p hp hne t ht
        · rw [List.mem_singleton.mp hs]
          have hmem : t ∈ (m.learn r.tokens).known :=
            List.mem_append_right _ (List.mem_flatMap.mpr ⟨p, hp, ht⟩)
          have h1 := List.count_pos_iff.mpr hmem
          simp only [copies]
          omega
      · rw [List.mem_singleton.mp hp] at ht hne
        rcases ha m hj with hnil | hempty
        · simp [Member.learn, hnil] at ht
        · have hs' : s ∈ r.members ++ [m.learn r.tokens] := hs
          rw [hempty, List.nil_append] at hs'
          exact absurd (congrArg Member.name (List.mem_singleton.mp hs')) hne

theorem AtMostOnce.run (h : r.AtMostOnce) (hr : r.WellFormed) {acts : List Act}
    (hacts : ∀ a ∈ acts, a.Quiet) : (Run.run Room.step r acts).AtMostOnce := by
  induction acts generalizing r with
  | nil => exact h
  | cons a acts ih =>
    have ha : a.Quiet := hacts a List.mem_cons_self
    exact ih (h.step hr (joinsSettled_of_quiet ha)) (hr.step a)
      fun b hb => hacts b (List.mem_cons_of_mem _ hb)

theorem AtLeastOnce.run (h : r.AtLeastOnce) (hr : r.WellFormed) {acts : List Act}
    (hacts : ∀ a ∈ acts, a.Quiet) : (Run.run Room.step r acts).AtLeastOnce := by
  induction acts generalizing r with
  | nil => exact h
  | cons a acts ih =>
    have ha : a.Quiet := hacts a List.mem_cons_self
    exact ih (h.step hr (joinsEmptyHanded_of_quiet ha)) (hr.step a)
      fun b hb => hacts b (List.mem_cons_of_mem _ hb)

end Room
end SfuKit.Library.Announcement
