import Mathlib.Data.Nat.Digits.Lemmas

/-! # Big-endian numerals of bytes

A list of bytes, most significant first, as a number. Lists of one length are told apart by
their numbers.
-/
namespace SfuKit.Library.BigEndian

/-- The number a list of bytes stands for, most significant byte first. -/
def value (bytes : List UInt8) : ℕ := Nat.ofDigits 256 (bytes.reverse.map UInt8.toNat)

@[simp] theorem value_nil : value [] = 0 := rfl

theorem digit_lt (bytes : List UInt8) : ∀ d ∈ bytes.reverse.map UInt8.toNat, d < 256 := by
  intro d hd
  obtain ⟨b, -, rfl⟩ := List.mem_map.mp hd
  exact b.toNat_lt

theorem value_concat (bytes : List UInt8) (b : UInt8) :
    value (bytes ++ [b]) = value bytes * 256 + b.toNat := by
  rw [value, List.reverse_concat, List.map_cons, Nat.ofDigits_cons, value]
  omega

theorem value_cons (b : UInt8) (bytes : List UInt8) :
    value (b :: bytes) = b.toNat * 256 ^ bytes.length + value bytes := by
  rw [value, List.reverse_cons, List.map_append, Nat.ofDigits_append, List.length_map,
    List.length_reverse, List.map_singleton, Nat.ofDigits_singleton, value]
  ring

theorem value_lt (bytes : List UInt8) : value bytes < 256 ^ bytes.length := by
  have h := Nat.ofDigits_lt_base_pow_length (by decide) (digit_lt bytes)
  rwa [List.length_map, List.length_reverse] at h

theorem value_inj {l m : List UInt8} (hlen : l.length = m.length) (h : value l = value m) :
    l = m := by
  have hdigits : l.reverse.map UInt8.toNat = m.reverse.map UInt8.toNat := by
    apply Nat.ofDigits_inj_of_len_eq (by decide) _ (digit_lt l) (digit_lt m) h
    simp [hlen]
  have hinj : Function.Injective UInt8.toNat := fun _ _ => UInt8.toNat_inj.mp
  exact List.reverse_injective (List.map_injective_iff.mpr hinj hdigits)

end SfuKit.Library.BigEndian
