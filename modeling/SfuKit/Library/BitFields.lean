import Mathlib.Tactic

/-! # Fields packed into a word

A word of `ws.sum` bits is cut into fields of widths `ws`, the most significant one first.
Cutting and packing are inverse to each other, and shifts with masks compute them.
-/
namespace SfuKit.Library.BitFields

def cut : List ℕ → ℕ → List ℕ
  | [], _ => []
  | w :: ws, n => n / 2 ^ ws.sum % 2 ^ w :: cut ws n

/-- The word with these fields. -/
def pack : List ℕ → List ℕ → ℕ
  | _ :: ws, v :: vs => v * 2 ^ ws.sum + pack ws vs
  | _, _ => 0

def Fits (ws vs : List ℕ) : Prop := List.Forall₂ (fun w v => v < 2 ^ w) ws vs

theorem cut_fits (ws : List ℕ) (n : ℕ) : Fits ws (cut ws n) := by
  induction ws with
  | nil => exact List.Forall₂.nil
  | cons w ws ih => exact List.Forall₂.cons (Nat.mod_lt _ (Nat.two_pow_pos w)) ih

theorem pack_lt {ws vs : List ℕ} (h : Fits ws vs) : pack ws vs < 2 ^ ws.sum := by
  induction h with
  | nil => exact Nat.one_pos
  | @cons w v ws vs hv _ ih =>
    rw [pack, List.sum_cons, Nat.pow_add]
    calc v * 2 ^ ws.sum + pack ws vs < (v + 1) * 2 ^ ws.sum := by
          rw [Nat.add_one_mul]
          exact Nat.add_lt_add_left ih _
      _ ≤ 2 ^ w * 2 ^ ws.sum := Nat.mul_le_mul_right _ hv

/-- The fields see nothing of what stands above the word. -/
theorem cut_add (ws : List ℕ) (n k : ℕ) : cut ws (k * 2 ^ ws.sum + n) = cut ws n := by
  induction ws generalizing k with
  | nil => rfl
  | cons w ws ih =>
    have hsplit : k * 2 ^ (w :: ws).sum + n = k * 2 ^ w * 2 ^ ws.sum + n := by
      rw [List.sum_cons, Nat.pow_add, Nat.mul_assoc]
    rw [cut, cut, hsplit, ih, Nat.add_comm, Nat.add_mul_div_right _ _ (Nat.two_pow_pos _),
      Nat.add_mul_mod_self_right]

theorem cut_pack {ws vs : List ℕ} (h : Fits ws vs) : cut ws (pack ws vs) = vs := by
  induction h with
  | nil => rfl
  | @cons w v ws vs hv hfits ih =>
    rw [cut, pack, cut_add, ih, Nat.add_comm, Nat.add_mul_div_right _ _ (Nat.two_pow_pos _),
      Nat.div_eq_of_lt (pack_lt hfits), Nat.zero_add, Nat.mod_eq_of_lt hv]

theorem pack_cut (ws : List ℕ) (n : ℕ) : pack ws (cut ws n) = n % 2 ^ ws.sum := by
  induction ws with
  | nil => exact (Nat.mod_one n).symm
  | cons w ws ih =>
    rw [cut, pack, ih, List.sum_cons, Nat.add_comm w, Nat.pow_add, Nat.mod_mul, Nat.mul_comm,
      Nat.add_comm]

/-- The fields of a word determine it. -/
theorem cut_eq_iff {ws vs : List ℕ} {n : ℕ} (hn : n < 2 ^ ws.sum) :
    cut ws n = vs ↔ Fits ws vs ∧ n = pack ws vs := by
  constructor
  · rintro rfl
    exact ⟨cut_fits ws n, by rw [pack_cut, Nat.mod_eq_of_lt hn]⟩
  · rintro ⟨hfits, rfl⟩
    exact cut_pack hfits

/-- A field as the code reads it, with a shift and a mask. -/
theorem shiftRight_and (n s w : ℕ) : n >>> s &&& (2 ^ w - 1) = n / 2 ^ s % 2 ^ w := by
  rw [Nat.and_two_pow_sub_one_eq_mod, Nat.shiftRight_eq_div_pow]

/-- The word as shifts and ors put it together. -/
def join : List ℕ → List ℕ → ℕ
  | _ :: ws, v :: vs => v <<< ws.sum ||| join ws vs
  | _, _ => 0

theorem join_eq_pack {ws vs : List ℕ} (h : Fits ws vs) : join ws vs = pack ws vs := by
  induction h with
  | nil => rfl
  | @cons w v ws vs _ hfits ih =>
    rw [join, pack, ih, ← Nat.shiftLeft_add_eq_or_of_lt (pack_lt hfits), Nat.shiftLeft_eq]

end SfuKit.Library.BitFields
