import SfuKit.Library.BitFields
import SfuKit.Model.FrameHeaders

/-! # What the frame headers say

Both parsers read one byte as a word of fields. A payload is accepted exactly if it has a byte,
and what comes out tells which byte that was: for frame marking the byte itself, for a dependency
descriptor the byte up to the templates that the parser does not know.
-/
namespace SfuKit

open Library BitFields

theorem flag_eq_iff (b : UInt8) {s : ℕ} (hs : s < 8) (f : Bool) :
    (((b >>> UInt8.ofNat s) &&& 1) == 1) = f ↔ b.toNat / 2 ^ s % 2 ^ 1 = f.toNat := by
  have hbit : ((b >>> UInt8.ofNat s) &&& 1).toNat = b.toNat / 2 ^ s % 2 ^ 1 := by
    rw [UInt8.toNat_and, UInt8.toNat_shiftRight, UInt8.toNat_ofNat', ← shiftRight_and]
    simp [Nat.mod_eq_of_lt hs]
  rw [← hbit]
  have hone : (((b >>> UInt8.ofNat s) &&& 1) == 1) = true ↔
      ((b >>> UInt8.ofNat s) &&& 1).toNat = 1 := by
    rw [beq_iff_eq, ← UInt8.toNat_inj]
    rfl
  have hlt : ((b >>> UInt8.ofNat s) &&& 1).toNat < 2 := by
    rw [hbit]
    exact Nat.mod_lt _ (by decide)
  cases f with
  | true => exact hone
  | false =>
    rw [← Bool.not_eq_true, hone, Bool.toNat_false]
    omega

theorem toNat_toUInt8_shiftLeft (f : Bool) {s : ℕ} (hs : s < 8) :
    (f.toUInt8 <<< UInt8.ofNat s).toNat = f.toNat <<< s := by
  have hflag : f.toUInt8.toNat = f.toNat := by cases f <;> rfl
  have hplace : (UInt8.ofNat s).toNat % 8 = s := by
    rw [UInt8.toNat_ofNat_of_lt' (hs.trans (by decide)), Nat.mod_eq_of_lt hs]
  rw [UInt8.toNat_shiftLeft, hflag, hplace]
  apply Nat.mod_eq_of_lt
  calc f.toNat <<< s = f.toNat * 2 ^ s := Nat.shiftLeft_eq ..
    _ ≤ 1 * 2 ^ 7 := Nat.mul_le_mul (Bool.toNat_le f) (Nat.pow_le_pow_right (by decide) (by omega))
    _ < 2 ^ 8 := by decide

theorem toNat_and_mask {v m : UInt8} {w : ℕ} (hmask : m.toNat = 2 ^ w - 1)
    (hv : v.toNat < 2 ^ w) : (v &&& m).toNat = v.toNat := by
  rw [UInt8.toNat_and, hmask, Nat.and_two_pow_sub_one_eq_mod, Nat.mod_eq_of_lt hv]

namespace FrameMarkingInfo

/-- The widths of the fields: five flags and the temporal layer. -/
def widths : List ℕ := [1, 1, 1, 1, 1, 3]

def fields (info : FrameMarkingInfo) : List ℕ :=
  [info.startOfFrame.toNat, info.endOfFrame.toNat, info.independent.toNat, info.discardable.toNat,
    info.baseLayerSync.toNat, info.temporalId.toNat]

theorem parse_cons_iff (b : UInt8) (rest : List UInt8) (info : FrameMarkingInfo) :
    parse (b :: rest) = some info ↔ cut widths b.toNat = info.fields := by
  obtain ⟨s, e, i, d, sync, tid⟩ := info
  have htid : b &&& 0x07 = tid ↔ b.toNat / 2 ^ 0 % 2 ^ 3 = tid.toNat := by
    rw [← shiftRight_and, ← UInt8.toNat_inj, UInt8.toNat_and]
    rfl
  have hs := flag_eq_iff b (show 7 < 8 by decide) s
  have he := flag_eq_iff b (show 6 < 8 by decide) e
  have hi := flag_eq_iff b (show 5 < 8 by decide) i
  have hd := flag_eq_iff b (show 4 < 8 by decide) d
  have hsync := flag_eq_iff b (show 3 < 8 by decide) sync
  have hparse : parse (b :: rest) = some ⟨s, e, i, d, sync, tid⟩ ↔
      (((b >>> 7) &&& 1) == 1) = s ∧ (((b >>> 6) &&& 1) == 1) = e ∧ (((b >>> 5) &&& 1) == 1) = i ∧
        (((b >>> 4) &&& 1) == 1) = d ∧ (((b >>> 3) &&& 1) == 1) = sync ∧ b &&& 0x07 = tid := by
    rw [parse, List.head?_cons, Option.bind_eq_bind, Option.bind_some, Option.pure_def,
      Option.some_inj, mk.injEq]
  rw [hparse, htid]
  refine Iff.trans (and_congr hs (and_congr he (and_congr hi (and_congr hd (and_congr hsync
    Iff.rfl))))) ?_
  simp [cut, widths, fields]

theorem fits_fields_iff (info : FrameMarkingInfo) :
    Fits widths info.fields ↔ info.temporalId < 8 := by
  simp only [Fits, widths, fields, List.forall₂_cons, List.forall₂_nil_right_iff, pow_one,
    Bool.toNat_lt, true_and, and_true]
  rw [UInt8.lt_iff_toNat_lt]
  rfl

theorem toNat_makeByte {info : FrameMarkingInfo} (h : info.temporalId < 8) :
    info.makeByte.toNat = pack widths info.fields := by
  have htid := toNat_and_mask (m := 0x07) (w := 3) rfl (UInt8.lt_iff_toNat_lt.mp h)
  have hs := toNat_toUInt8_shiftLeft info.startOfFrame (show 7 < 8 by decide)
  have he := toNat_toUInt8_shiftLeft info.endOfFrame (show 6 < 8 by decide)
  have hi := toNat_toUInt8_shiftLeft info.independent (show 5 < 8 by decide)
  have hd := toNat_toUInt8_shiftLeft info.discardable (show 4 < 8 by decide)
  have hsync := toNat_toUInt8_shiftLeft info.baseLayerSync (show 3 < 8 by decide)
  simp only [UInt8.reduceOfNat] at hs he hi hd hsync
  rw [← join_eq_pack ((fits_fields_iff info).mpr h), makeByte]
  simp only [UInt8.toNat_or, hs, he, hi, hd, hsync, htid, Nat.or_assoc]
  simp [join, widths, fields]

/-- A payload parses exactly if its first byte is the one that the marking is written as. -/
theorem parse_iff_marking (bytes : List UInt8) (info : FrameMarkingInfo) :
    parse bytes = some info ↔
      info.temporalId < 8 ∧ ∃ rest, bytes = info.makeByte :: rest := by
  cases bytes with
  | nil => simp [parse]
  | cons b rest =>
    have hb : b.toNat < 2 ^ widths.sum := b.toNat_lt
    rw [parse_cons_iff, cut_eq_iff hb, fits_fields_iff]
    apply and_congr_right
    intro htid
    rw [← toNat_makeByte htid, UInt8.toNat_inj]
    simp

end FrameMarkingInfo

namespace Av1DdInfo

/-- The widths of the fields: two flags and the template. -/
def widths : List ℕ := [1, 1, 6]

/-- The layers that a template stands for; one that is not of L3T3 stands for the base layer. -/
def Template (info : Av1DdInfo) (templateId : UInt8) : Prop :=
  if templateId < 9 then
    info.temporalId < 3 ∧ templateId.toNat = 3 * info.spatialId.toNat + info.temporalId.toNat
  else info.spatialId = 0 ∧ info.temporalId = 0

theorem template_iff (info : Av1DdInfo) (t : UInt8) : info.Template t ↔
    (if t < 9 then (t / 3, t % 3) else (0, 0)) = (info.spatialId, info.temporalId) := by
  unfold Template
  split_ifs
  · rw [Prod.mk.injEq, ← UInt8.toNat_inj, ← UInt8.toNat_inj, UInt8.toNat_div, UInt8.toNat_mod,
      UInt8.lt_iff_toNat_lt]
    simp only [UInt8.reduceToNat]
    omega
  · rw [Prod.mk.injEq, eq_comm, eq_comm (a := info.temporalId)]

theorem parse_cons_iff (b : UInt8) (rest : List UInt8) (info : Av1DdInfo) :
    parse (b :: rest) = some info ↔ ∃ t, info.Template t ∧
      cut widths b.toNat = [info.startOfFrame.toNat, info.endOfFrame.toNat, t.toNat] := by
  obtain ⟨spatial, temporal, sof, eof⟩ := info
  have htemplate : ∀ t : UInt8, b.toNat / 2 ^ 0 % 2 ^ 6 = t.toNat ↔ t = b &&& 0x3F := by
    intro t
    rw [← shiftRight_and, ← UInt8.toNat_inj, UInt8.toNat_and, eq_comm]
    rfl
  have hs := flag_eq_iff b (show 7 < 8 by decide) sof
  have he := flag_eq_iff b (show 6 < 8 by decide) eof
  simp only [UInt8.reduceOfNat] at hs he
  have hcut : ∀ t : UInt8, cut widths b.toNat = [sof.toNat, eof.toNat, t.toNat] ↔
      (((b >>> 7) &&& 1) == 1) = sof ∧ (((b >>> 6) &&& 1) == 1) = eof ∧ t = b &&& 0x3F := by
    intro t
    rw [hs, he, ← htemplate]
    simp [cut, widths]
  simp only [hcut, template_iff]
  simp only [parse, List.head?_cons, Option.bind_eq_bind, Option.bind_some, Option.pure_def,
    Option.some_inj, mk.injEq, Prod.ext_iff]
  constructor
  · rintro ⟨hspatial, htemporal, hsof, heof⟩
    exact ⟨b &&& 0x3F, ⟨hspatial, htemporal⟩, hsof, heof, rfl⟩
  · rintro ⟨t, ⟨hspatial, htemporal⟩, hsof, heof, rfl⟩
    exact ⟨hspatial, htemporal, hsof, heof⟩

theorem fits_iff (sof eof : Bool) (t : UInt8) :
    Fits widths [sof.toNat, eof.toNat, t.toNat] ↔ t < 64 := by
  simp only [Fits, widths, List.forall₂_cons, List.forall₂_nil_right_iff, pow_one, Bool.toNat_lt,
    true_and, and_true]
  rw [UInt8.lt_iff_toNat_lt]
  rfl

theorem toNat_makeByte (sof eof : Bool) {t : UInt8} (h : t < 64) :
    (makeByte sof eof t).toNat = pack widths [sof.toNat, eof.toNat, t.toNat] := by
  have hmask := toNat_and_mask (m := 0x3F) (w := 6) rfl (UInt8.lt_iff_toNat_lt.mp h)
  have hflag : ∀ (f : Bool) (place : UInt8),
      (if f then (1 : UInt8) <<< place else 0) = f.toUInt8 <<< place := by
    intro f place
    cases f with
    | true => rfl
    | false => exact (UInt8.zero_shiftLeft ..).symm
  have hs := toNat_toUInt8_shiftLeft sof (show 7 < 8 by decide)
  have he := toNat_toUInt8_shiftLeft eof (show 6 < 8 by decide)
  simp only [UInt8.reduceOfNat] at hs he
  rw [← join_eq_pack ((fits_iff sof eof t).mpr h), makeByte, hflag, hflag]
  simp only [UInt8.toNat_or, hs, he, hmask, Nat.or_assoc]
  simp [join, widths]

/-- A payload parses exactly if its first byte is one that a template is written as, with the
flags, and the layers are those of the template. -/
theorem parse_iff_template (bytes : List UInt8) (info : Av1DdInfo) :
    parse bytes = some info ↔
      ∃ t < 64, info.Template t ∧
        ∃ rest, bytes = makeByte info.startOfFrame info.endOfFrame t :: rest := by
  cases bytes with
  | nil => simp [parse]
  | cons b rest =>
    have hb : b.toNat < 2 ^ widths.sum := b.toNat_lt
    rw [parse_cons_iff]
    apply exists_congr
    intro t
    rw [cut_eq_iff hb, fits_iff, and_left_comm]
    apply and_congr_right
    intro ht
    apply and_congr_right'
    rw [← toNat_makeByte _ _ ht, UInt8.toNat_inj]
    simp

end Av1DdInfo
end SfuKit
