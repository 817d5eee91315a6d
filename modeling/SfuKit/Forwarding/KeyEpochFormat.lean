import Mathlib.Data.PEquiv
import SfuKit.Library.BigEndian
import SfuKit.Model.Sframe

/-! # The wire format of a KID

A KID is on the wire as the four bytes that, most significant first, have its value. That is a
partial bijection, between the KIDs of 32 bits and the lists of four bytes, and the serializer
computes it in both directions.
-/
namespace SfuKit

open Library BigEndian

namespace KeyEpoch

def WireForm (k : KeyEpoch) (bytes : List UInt8) : Prop :=
  bytes.length = sframeKidWidth ∧ value bytes = k.asU64.toNat

def encode (k : KeyEpoch) : Option (List UInt8) :=
  (u32TryFrom k.asU64).map fun kid32 => (toBeBytes kid32).toList

def decode (bytes : List UInt8) : Option KeyEpoch :=
  (arrayTryFrom sframeKidWidth bytes).map fun b => new (fromBeBytes b).toUInt64

end KeyEpoch

theorem value_toBeBytes (x : UInt32) : value (toBeBytes x).toList = x.toNat := by
  have hx := x.toNat_lt
  simp only [toBeBytes, Vector.toList_mk, value_cons, value_nil, List.length_cons, List.length_nil,
    UInt32.toNat_toUInt8, UInt32.toNat_shiftRight, UInt32.reduceToNat, Nat.reduceMod, Nat.reducePow,
    Nat.shiftRight_eq_div_pow]
  omega

theorem toNat_shiftLeft_or {x : UInt32} (hx : x.toNat < 2 ^ 24) (b : UInt8) :
    (x <<< 8 ||| b.toUInt32).toNat = x.toNat * 256 + b.toNat := by
  have hb : b.toNat < 2 ^ 8 := b.toNat_lt
  have hshift : (x <<< 8).toNat = x.toNat <<< 8 := by
    apply Nat.mod_eq_of_lt
    change x.toNat <<< 8 < 2 ^ 32
    rw [Nat.shiftLeft_eq]
    omega
  rw [UInt32.toNat_or, hshift, UInt8.toNat_toUInt32, ← Nat.shiftLeft_add_eq_or_of_lt hb,
    Nat.shiftLeft_eq]

theorem toNat_foldl_shiftLeft {l : List UInt8} (hl : l.length ≤ 4) :
    (l.foldl (fun (x : UInt32) b => x <<< 8 ||| b.toUInt32) 0).toNat = value l := by
  induction l using List.reverseRecOn with
  | nil => rfl
  | append_singleton l b ih =>
    rw [List.length_append, List.length_singleton] at hl
    have hvalue := ih (by omega)
    have hroom : value l < 2 ^ 24 := by
      calc value l < 256 ^ l.length := value_lt l
        _ ≤ 256 ^ 3 := Nat.pow_le_pow_right (by decide) (by omega)
        _ = 2 ^ 24 := by norm_num
    rw [List.foldl_concat, value_concat, ← hvalue]
    apply toNat_shiftLeft_or
    rwa [hvalue]

theorem toNat_fromBeBytes (bytes : Vector UInt8 4) :
    (fromBeBytes bytes).toNat = value bytes.toList := by
  apply toNat_foldl_shiftLeft
  rw [Vector.length_toList]

theorem u32TryFrom_eq_some_iff {x : UInt64} {y : UInt32} :
    u32TryFrom x = some y ↔ x.toNat = y.toNat := by
  have hy := y.toNat_lt
  unfold u32TryFrom u32Max
  split_ifs with hx
  · rw [Option.some_inj, ← UInt32.toNat_inj, UInt64.toNat_toUInt32, Nat.mod_eq_of_lt (by omega)]
  · constructor
    · intro h
      cases h
    · omega

theorem arrayTryFrom_eq_some_iff {n : ℕ} {buf : List UInt8} {bytes : Vector UInt8 n} :
    arrayTryFrom n buf = some bytes ↔ bytes.toList = buf := by
  unfold arrayTryFrom
  split_ifs with h
  · rw [Option.some_inj, ← Vector.toList_inj]
    exact eq_comm
  · constructor
    · intro hb
      cases hb
    · rintro rfl
      exact absurd bytes.length_toList h

namespace KeyEpoch
variable {k : KeyEpoch} {bytes : List UInt8}

theorem encode_eq_some_iff : k.encode = some bytes ↔ k.WireForm bytes := by
  rw [encode, Option.map_eq_some_iff]
  constructor
  · rintro ⟨kid32, hkid, rfl⟩
    refine ⟨Vector.length_toList, ?_⟩
    rw [value_toBeBytes, u32TryFrom_eq_some_iff.mp hkid]
  · rintro ⟨hlen, hvalue⟩
    have hlt : k.asU64.toNat < UInt32.size := by
      rw [← hvalue]
      apply (value_lt bytes).trans_eq
      rw [hlen]
      rfl
    have hkid : (UInt32.ofNat k.asU64.toNat).toNat = k.asU64.toNat :=
      UInt32.toNat_ofNat_of_lt hlt
    refine ⟨.ofNat k.asU64.toNat, u32TryFrom_eq_some_iff.mpr hkid.symm, ?_⟩
    apply value_inj
    · rw [Vector.length_toList, hlen]
    · rw [value_toBeBytes, hkid, hvalue]

theorem decode_eq_some_iff : decode bytes = some k ↔ k.WireForm bytes := by
  rw [decode, Option.map_eq_some_iff]
  constructor
  · rintro ⟨b, hb, rfl⟩
    obtain rfl := arrayTryFrom_eq_some_iff.mp hb
    refine ⟨Vector.length_toList, ?_⟩
    rw [← toNat_fromBeBytes]
    exact (UInt32.toNat_toUInt64 _).symm
  · rintro ⟨hlen, hvalue⟩
    refine ⟨⟨bytes.toArray, hlen⟩, arrayTryFrom_eq_some_iff.mpr rfl, ?_⟩
    have hkid : (fromBeBytes ⟨bytes.toArray, hlen⟩).toUInt64 = k.asU64 := by
      apply UInt64.toNat_inj.mp
      rw [UInt32.toNat_toUInt64, toNat_fromBeBytes, ← hvalue, Vector.toList_mk]
    rw [hkid]
    rfl

/-- The format as a partial bijection. -/
def wire : KeyEpoch ≃. List UInt8 where
  toFun := encode
  invFun := decode
  inv _ _ := decode_eq_some_iff.trans encode_eq_some_iff.symm

theorem wire_apply (k : KeyEpoch) : wire k = k.encode := rfl

theorem wire_symm_apply (bytes : List UInt8) : wire.symm bytes = decode bytes := rfl

theorem encode_isSome_iff : k.encode.isSome ↔ k.asU64.toNat ≤ u32Max := by
  rw [encode, Option.isSome_map, u32TryFrom]
  split_ifs with h <;> simp [h]

theorem decode_isSome_iff : (decode bytes).isSome ↔ bytes.length = sframeKidWidth := by
  rw [decode, Option.isSome_map, arrayTryFrom]
  split_ifs with h <;> simp [h]

theorem encode_eq_none (h : u32Max < k.asU64.toNat) : k.encode = none := by
  rw [← Option.not_isSome_iff_eq_none, encode_isSome_iff]
  exact not_le.mpr h

theorem decode_eq_none (h : bytes.length ≠ sframeKidWidth) : decode bytes = none := by
  rw [← Option.not_isSome_iff_eq_none, decode_isSome_iff]
  exact h

end KeyEpoch

namespace KeyEpochSerializer

open ExtensionValues

variable {E : Type*} [ExtensionValues E] {buf bytes : List UInt8} {ev : E} {k : KeyEpoch}

/-- `write_to` puts the wire form of the KID at the front of a buffer that has room for it. -/
theorem writeTo_eq (buf : List UInt8) (ev : E) :
    writeTo buf ev = ((getKeyEpoch ev).bind KeyEpoch.wire).elim (buf, 0) fun bytes =>
      if buf.length < sframeKidWidth then (buf, 0)
      else (bytes ++ buf.drop sframeKidWidth, sframeKidWidth) := by
  unfold writeTo
  cases getKeyEpoch ev with
  | none => rfl
  | some k =>
    dsimp only
    rw [Option.bind_some, KeyEpoch.wire_apply, KeyEpoch.encode]
    cases u32TryFrom k.asU64 <;> rfl

/-- `parse_value` sets the KID that the buffer is the wire form of. -/
theorem parseValue_eq (buf : List UInt8) (ev : E) :
    parseValue buf ev = (KeyEpoch.wire.symm buf).elim (ev, false) fun k =>
      (setKeyEpoch ev k, true) := by
  unfold parseValue
  rw [KeyEpoch.wire_symm_apply, KeyEpoch.decode]
  cases arrayTryFrom sframeKidWidth buf <;> rfl

theorem writeTo_of_wire (hev : (getKeyEpoch ev).bind KeyEpoch.wire = some bytes)
    (hbuf : sframeKidWidth ≤ buf.length) :
    writeTo buf ev = (bytes ++ buf.drop sframeKidWidth, sframeKidWidth) := by
  rw [writeTo_eq, hev, Option.elim_some, if_neg (not_lt.mpr hbuf)]

theorem writeTo_of_not_wire (hev : (getKeyEpoch ev).bind KeyEpoch.wire = none) :
    writeTo buf ev = (buf, 0) := by
  rw [writeTo_eq, hev, Option.elim_none]

theorem writeTo_of_short (hbuf : buf.length < sframeKidWidth) : writeTo buf ev = (buf, 0) := by
  rw [writeTo_eq]
  cases (getKeyEpoch ev).bind KeyEpoch.wire with
  | none => rfl
  | some bytes => rw [Option.elim_some, if_pos hbuf]

theorem parseValue_of_wire (h : KeyEpoch.wire k = some bytes) (ev : E) :
    parseValue bytes ev = (setKeyEpoch ev k, true) := by
  rw [parseValue_eq, KeyEpoch.wire.eq_some_iff.mpr h, Option.elim_some]

theorem parseValue_accepts_iff : (parseValue bytes ev).2 = true ↔
    bytes.length = sframeKidWidth := by
  rw [parseValue_eq, ← KeyEpoch.decode_isSome_iff, KeyEpoch.wire_symm_apply]
  cases KeyEpoch.decode bytes <;> simp

theorem parseValue_of_rejected (h : bytes.length ≠ sframeKidWidth) (ev : E) :
    parseValue bytes ev = (ev, false) := by
  rw [parseValue_eq, KeyEpoch.wire_symm_apply, KeyEpoch.decode_eq_none h, Option.elim_none]

theorem writeTo_of_fits (hev : getKeyEpoch ev = some k) (hk : k.asU64.toNat ≤ u32Max)
    (hbuf : sframeKidWidth ≤ buf.length) : ∃ bytes, KeyEpoch.wire k = some bytes ∧
      bytes.length = sframeKidWidth ∧
      writeTo buf ev = (bytes ++ buf.drop sframeKidWidth, sframeKidWidth) := by
  obtain ⟨bytes, hwire⟩ := Option.isSome_iff_exists.mp (KeyEpoch.encode_isSome_iff.mpr hk)
  refine ⟨bytes, hwire, (KeyEpoch.encode_eq_some_iff.mp hwire).1, ?_⟩
  apply writeTo_of_wire _ hbuf
  rw [hev]
  exact hwire

/-- What was accepted is written again byte by byte. -/
theorem writeTo_parseValue (laws : UserValueLaws E) (haccepted : (parseValue bytes ev).2 = true)
    (hbuf : sframeKidWidth ≤ buf.length) : writeTo buf (parseValue bytes ev).1 =
      (bytes ++ buf.drop sframeKidWidth, sframeKidWidth) := by
  have hsome := KeyEpoch.decode_isSome_iff.mpr (parseValue_accepts_iff.mp haccepted)
  obtain ⟨k, hk⟩ := Option.isSome_iff_exists.mp hsome
  have hwire : KeyEpoch.wire k = some bytes := KeyEpoch.wire.eq_some_iff.mp hk
  rw [parseValue_of_wire hwire ev]
  apply writeTo_of_wire _ hbuf
  rw [laws.get_set, Option.bind_some, hwire]

/-- A KID of 32 bits is written to the front of any buffer that has room and read back from there,
four bytes that are read are written back, and everything else is refused in both directions
without a trace. -/
theorem serializer_bijection (laws : UserValueLaws E) :
    (∀ (ev : E) (k : KeyEpoch) (buf : List UInt8), getKeyEpoch ev = some k →
      k.asU64.toNat ≤ u32Max → 4 ≤ buf.length →
        (writeTo buf ev).2 = 4 ∧ (writeTo buf ev).1.length = buf.length ∧
        (writeTo buf ev).1.drop 4 = buf.drop 4 ∧
        ∀ ev' : E, (parseValue ((writeTo buf ev).1.take 4) ev').2 = true ∧
          getKeyEpoch (parseValue ((writeTo buf ev).1.take 4) ev').1 = some k) ∧
    (∀ (bytes : List UInt8) (ev : E), (parseValue bytes ev).2 = true →
      ∀ buf : List UInt8, 4 ≤ buf.length →
        writeTo buf (parseValue bytes ev).1 = (bytes ++ buf.drop 4, 4)) ∧
    (∀ (bytes : List UInt8) (ev : E), (parseValue bytes ev).2 = true ↔ bytes.length = 4) ∧
    (∀ (bytes : List UInt8) (ev : E), (parseValue bytes ev).2 = false →
      (parseValue bytes ev).1 = ev) ∧
    ∀ (ev : E) (buf : List UInt8), getKeyEpoch ev = none ∨
      (∃ k, getKeyEpoch ev = some k ∧ u32Max < k.asU64.toNat) ∨ buf.length < 4 →
        writeTo buf ev = (buf, 0) := by
  refine ⟨?_, fun bytes ev haccepted buf hbuf => writeTo_parseValue laws haccepted hbuf,
    fun bytes ev => parseValue_accepts_iff, ?_, ?_⟩
  · intro ev k buf hev hk hbuf
    obtain ⟨bytes, hwire, hlen, hwritten⟩ := writeTo_of_fits hev hk hbuf
    rw [hwritten]
    refine ⟨rfl, ?_, List.drop_left' hlen, fun ev' => ?_⟩
    · rw [List.length_append, List.length_drop, hlen]
      exact Nat.add_sub_of_le hbuf
    · rw [List.take_left' hlen, parseValue_of_wire hwire ev']
      exact ⟨rfl, laws.get_set ev' k⟩
  · intro bytes ev hrejected
    have hlen : bytes.length ≠ sframeKidWidth := by
      intro hlen
      rw [parseValue_accepts_iff.mpr hlen] at hrejected
      cases hrejected
    rw [parseValue_of_rejected hlen]
  · rintro ev buf (hnone | ⟨k, hk, hwide⟩ | hshort)
    · apply writeTo_of_not_wire
      rw [hnone, Option.bind_none]
    · apply writeTo_of_not_wire
      rw [hk, Option.bind_some]
      exact KeyEpoch.encode_eq_none hwide
    · exact writeTo_of_short hshort

/-- A KID in a buffer of sixteen bytes, and back. -/
theorem serializer_bijection_sixteen :
    let ev : UserValues := ⟨some (.new 0x01020304)⟩
    let written := writeTo (List.replicate 16 0) ev
    written.2 = 4 ∧ getKeyEpoch (parseValue (written.1.take 4) (⟨none⟩ : UserValues)).1 =
      some (.new 0x01020304) := by
  intro ev written
  have hwritten := (serializer_bijection UserValues.laws).1 ev (.new 0x01020304)
    (List.replicate 16 0) rfl (by decide) (by decide)
  exact ⟨hwritten.1, (hwritten.2.2.2 ⟨none⟩).2⟩

end KeyEpochSerializer
end SfuKit
