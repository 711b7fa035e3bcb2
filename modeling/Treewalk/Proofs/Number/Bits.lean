import Mathlib
import Treewalk.Number.Binary

/-!
# Doubles by their bits

The patterns up to that of infinity are the doubles that are not negative and are numbers. Making a
double of such a pattern and taking it apart again gives the pattern back.
-/

namespace Treewalk.Number

open Float.Model (Format)
open Float.Model.UnpackedFloat

/-! ## The fields of a pattern -/

theorem toNat_packComponents (exponent : BitVec 11) (fraction : BitVec 52) :
    (packComponents .binary64 .positive exponent fraction).toNat =
      exponent.toNat * Nat.pow 2 52 + fraction.toNat := by
  unfold packComponents
  rw [BitVec.toNat_append, BitVec.toNat_append, ← Nat.shiftLeft_add_eq_or_of_lt fraction.isLt,
    ← Nat.shiftLeft_add_eq_or_of_lt exponent.isLt]
  simp [Sign.toBitVec, Nat.shiftLeft_eq]

/-- The 52 bits of the fraction. -/
abbrev fraction (b : BitVec 64) : BitVec 52 := @unpackMantissa .binary64 b

/-- The 11 bits of the exponent. -/
abbrev field (b : BitVec 64) : BitVec 11 := @unpackExponent .binary64 b

theorem toNat_fraction (b : BitVec 64) : (fraction b).toNat = b.toNat % Nat.pow 2 52 := by
  simp [fraction, unpackMantissa]

theorem toNat_field (b : BitVec 64) :
    (field b).toNat = b.toNat / Nat.pow 2 52 % Nat.pow 2 11 := by
  simp [field, unpackExponent, Nat.shiftRight_eq_div_pow]

def signOf (negative : Bool) : Sign := if negative then .negative else .positive

theorem ofBitVec_unpackSign (b : BitVec 64) :
    Sign.ofBitVec (@unpackSign .binary64 b) = signOf (decide (signBit ≤ b.toNat)) := by
  have hlt := b.isLt
  have hsign : signBit = 2 ^ 63 := rfl
  have hnat : (@unpackSign .binary64 b).toNat = b.toNat / 2 ^ 63 % 2 := by
    simp [unpackSign, Nat.shiftRight_eq_div_pow]
  unfold Sign.ofBitVec signOf
  by_cases h : signBit ≤ b.toNat
  · rw [decide_eq_true h, if_pos rfl, if_neg]
    rw [← BitVec.toNat_inj, hnat, BitVec.toNat_ofNat]
    omega
  · rw [decide_eq_false h, if_pos]
    · rfl
    · rw [← BitVec.toNat_inj, hnat, BitVec.toNat_ofNat]
      omega

theorem unpackSign_eq_positive {b : BitVec 64} (h : b.toNat < Nat.pow 2 63) :
    Sign.ofBitVec (@unpackSign .binary64 b) = .positive := by
  have hsign : ¬ signBit ≤ b.toNat := Nat.not_le.2 h
  rw [ofBitVec_unpackSign, decide_eq_false hsign]
  rfl

theorem packComponents_unpack {b : BitVec 64} (h : b.toNat < Nat.pow 2 63) :
    packComponents .binary64 .positive (field b) (fraction b) = b := by
  apply BitVec.eq_of_toNat_eq
  rw [toNat_packComponents, toNat_field, toNat_fraction]
  simp only [Nat.pow_eq, Nat.reducePow] at h ⊢
  omega

/-! ## Making a double and taking it apart -/

theorem pack_finite {m : Nat} (hm : 0 < m) {e : Int} {n : Nat} (he : e + 1075 = n)
    (hn : n < 2047) :
    pack .binary64 (.finite .positive m e hm) =
      if m.log2 = 52 then packComponents .binary64 .positive (.ofNat 11 n) (.ofNat 52 m)
      else packComponents .binary64 .positive 0#11 (.ofNat 52 m) := by
  have hbias : Format.binary64.exponentBias = 1023 := rfl
  have hbits : Format.binary64.mantissaBits = 52 + 1 := rfl
  have hbiased : (e + (1023 : Nat) + (52 : Nat)).toNat = n := by omega
  unfold pack
  simp only [hbias, hbits, hbiased, Nat.add_right_cancel_iff]
  rw [if_neg (by omega)]

theorem pack_unpack {b : BitVec 64} (hsign : b.toNat < Nat.pow 2 63)
    (hnan : field b = -1#11 → fraction b = 0#52) : pack .binary64 (unpack .binary64 b) = b := by
  have hfraction := (fraction b).isLt
  have hfield := (field b).isLt
  refine Eq.trans ?_ (packComponents_unpack hsign)
  unfold unpack
  simp only [unpackSign_eq_positive hsign]
  split
  · next hexp =>
    change field b = -1#11 at hexp
    rw [if_pos (hnan hexp), hexp, hnan hexp]
    rfl
  next hexp =>
  split
  · next hzero =>
    change field b = 0#11 at hzero
    split
    · next hmant =>
      change fraction b = 0#52 at hmant
      rw [hzero, hmant]
      rfl
    · next hmant =>
      have hone : ((field b).toNat : Int) - ((1023 : Nat) + (52 : Nat)) + 1 + 1075 = (1 : Nat) := by
        rw [hzero]
        rfl
      have hlog : (fraction b).toNat.log2 ≠ 52 := by
        have hpos : (fraction b).toNat ≠ 0 := fun h => hmant (BitVec.eq_of_toNat_eq h)
        rw [Ne, Nat.log2_eq_iff hpos]
        omega
      refine (pack_finite _ hone (by omega)).trans ?_
      rw [if_neg hlog, hzero, BitVec.ofNat_toNat, BitVec.setWidth_eq]
  · have hsame : ((field b).toNat : Int) - ((1023 : Nat) + (52 : Nat)) + 1075 = (field b).toNat := by
      omega
    have hne : (field b).toNat ≠ 2047 := fun h => hexp (BitVec.eq_of_toNat_eq h)
    have hvalue : (1#1 ++ fraction b).toNat = 2 ^ 52 + (fraction b).toNat := by
      rw [BitVec.toNat_append, ← Nat.shiftLeft_add_eq_or_of_lt (fraction b).isLt]
      rfl
    have hlog : (1#1 ++ fraction b).toNat.log2 = 52 := by
      rw [Nat.log2_eq_iff (by omega), hvalue]
      omega
    refine (pack_finite _ hsame (by omega)).trans ?_
    rw [if_pos hlog, BitVec.ofNat_toNat, BitVec.setWidth_eq]
    congr 1
    apply BitVec.eq_of_toNat_eq
    rw [BitVec.toNat_ofNat, hvalue]
    omega

theorem toBits_ofBits {pattern : Nat} (h : pattern ≤ infinityPattern) :
    (Float.ofBits pattern.toUInt64).toBits.toNat = pattern := by
  have hlt : pattern < Nat.pow 2 63 := Nat.lt_of_le_of_lt h (by decide)
  have hnat : pattern.toUInt64.toBitVec.toNat = pattern := by
    simp only [Nat.pow_eq, Nat.reducePow] at hlt
    simp [Nat.toUInt64]
    omega
  have hnan : field pattern.toUInt64.toBitVec = -1#11 → fraction pattern.toUInt64.toBitVec = 0#52 := by
    intro hfield
    apply BitVec.eq_of_toNat_eq
    have hfield := congrArg BitVec.toNat hfield
    rw [toNat_field, hnat] at hfield
    rw [toNat_fraction, hnat]
    simp [infinityPattern, hiddenBit] at h hfield ⊢
    omega
  have hpack := pack_unpack (by rw [hnat]; exact hlt) hnan
  exact (congrArg BitVec.toNat hpack).trans hnat

theorem form_ofBits {pattern : Nat} (h : pattern < infinityPattern) :
    form (.ofBits pattern.toUInt64) = .finite false (.ofPattern pattern) := by
  have hsign : pattern < signBit := Nat.lt_trans h (by decide)
  unfold form
  simp only [toBits_ofBits (Nat.le_of_lt h), Nat.mod_eq_of_lt hsign, if_pos h]
  rw [decide_eq_false (Nat.not_le.2 hsign)]

theorem form_infinity : form (.ofBits infinityPattern.toUInt64) = .infinite false := by
  unfold form
  simp only [toBits_ofBits (Nat.le_refl _)]
  decide

end Treewalk.Number
