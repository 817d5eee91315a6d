import Mathlib.Data.List.AList
import Mathlib.Tactic

/-! # A bounded map that evicts its smallest key

Recording an entry in a full map first removes the entry with the smallest key. The map keeps
its bound and always has the entry recorded last. It also makes room when the key is there
already and no room is needed; that is harmless only if the key is itself the smallest one.
-/
namespace SfuKit.Library.BoundedMap

variable {κ : Type*} {β : κ → Type*}

theorem length_keys (m : AList β) : m.keys.length = m.entries.length := List.length_map _

variable [LinearOrder κ] (cap : ℕ) (m : AList β) (k : κ) (v : β k)

/-- The key that makes room in a full map. -/
def victim : Option κ := if cap ≤ m.entries.length then m.keys.min? else none

def record : AList β := ((victim cap m).elim m m.erase).insert k v

theorem mem_of_victim {o : κ} (h : victim cap m = some o) : o ∈ m := by
  unfold victim at h
  split_ifs at h
  exact AList.mem_keys.mpr (List.min?_mem h)

theorem exists_victim (hcap : 0 < cap) (h : cap ≤ m.entries.length) :
    ∃ o, victim cap m = some o := by
  have hne : m.keys ≠ [] := by
    rw [← List.length_pos_iff, length_keys]
    omega
  rw [victim, if_pos h]
  exact Option.isSome_iff_exists.mp (List.isSome_min?_of_ne_nil hne)

@[simp] theorem lookup_record_self : (record cap m k v).lookup k = some v := AList.lookup_insert _

/-- Recording removes the victim and leaves every other entry alone. -/
theorem lookup_record_ne {k' : κ} (h : k' ≠ k) : (record cap m k v).lookup k' =
    if victim cap m = some k' then none else m.lookup k' := by
  rw [record, AList.lookup_insert_ne h]
  cases hv : victim cap m with
  | none => simp
  | some o =>
    rw [Option.elim_some]
    split_ifs with ho
    · obtain rfl := Option.some.inj ho
      exact AList.lookup_erase o m
    · exact AList.lookup_erase_ne fun he => ho (congrArg some he.symm)

theorem length_insert_le : (m.insert k v).entries.length ≤ m.entries.length + 1 := by
  rw [← length_keys, ← length_keys, AList.keys_insert, List.length_cons]
  exact Nat.add_le_add_right List.length_erase_le 1

theorem length_erase_lt {o : κ} (h : o ∈ m) : (m.erase o).entries.length < m.entries.length := by
  have hpos := List.length_pos_of_mem (AList.mem_keys.mp h)
  rw [← length_keys, ← length_keys, AList.keys_erase, List.length_erase_of_mem (AList.mem_keys.mp h)]
  omega

theorem length_record_le (hcap : 0 < cap) (h : m.entries.length ≤ cap) :
    (record cap m k v).entries.length ≤ cap := by
  have hinsert := length_insert_le ((victim cap m).elim m m.erase) k v
  unfold record
  cases hv : victim cap m with
  | none =>
    rw [hv, Option.elim_none] at hinsert
    have hlt : m.entries.length < cap := by
      by_contra hfull
      obtain ⟨o, ho⟩ := exists_victim cap m hcap (not_lt.mp hfull)
      rw [ho] at hv
      cases hv
    rw [Option.elim_none]
    omega
  | some o =>
    have herase := length_erase_lt m (mem_of_victim cap m hv)
    rw [hv, Option.elim_some] at hinsert
    rw [Option.elim_some]
    omega

/-- The other entries change only to make room for a new one, and then by the loss of the
smallest key. -/
def Frugal (m' : AList β) : Prop :=
  ∀ k' ≠ k, m'.lookup k' = if k ∉ m ∧ victim cap m = some k' then none else m.lookup k'

/-- A recording is frugal exactly when it does not evict for a key that is there already, or
evicts that key itself. -/
theorem frugal_record_iff :
    Frugal cap m k (record cap m k v) ↔ (k ∈ m → ∀ o, victim cap m = some o → o = k) := by
  constructor
  · intro h hk o ho
    by_contra hne
    have hlookup := h o hne
    have hnot : ¬ (k ∉ m ∧ victim cap m = some o) := fun hc => hc.1 hk
    rw [lookup_record_ne cap m k v hne, if_pos ho, if_neg hnot] at hlookup
    exact AList.lookup_eq_none.mp hlookup.symm (mem_of_victim cap m ho)
  · intro h k' hne
    rw [lookup_record_ne cap m k v hne]
    by_cases hk : k ∈ m
    · have hvictim : victim cap m ≠ some k' := fun hv => hne (h hk k' hv)
      have hnot : ¬ (k ∉ m ∧ victim cap m = some k') := fun hc => hc.1 hk
      rw [if_neg hvictim, if_neg hnot]
    · simp [hk]

end SfuKit.Library.BoundedMap
