import Treewalk.Proofs.Number.Bits
import Treewalk.Proofs.Number.Rounding

/-!
# The numbers that doubles are

A finite double is a fraction with a power of two below the line. Comparing doubles compares these
fractions, and cutting a double off at the point gives the whole part, which is a double too. Up to
the size of a word, converting to a word is exact.
-/

namespace Treewalk.Number

open Float.Model (Format UnpackedFloat)
open Float.Model.UnpackedFloat (Sign)

/-! ## Taking doubles apart -/

def Magnitude.unpacked (m : Magnitude) (sign : Sign) : UnpackedFloat :=
  if h : m.significand = 0 then .zero sign
  else .finite sign m.significand (m.exponent - 1074) (Nat.pos_of_ne_zero h)

def Form.unpacked : Form → UnpackedFloat
  | nan => .notANumber
  | infinite negative => .infinity (signOf negative)
  | finite negative size => size.unpacked (signOf negative)

theorem field_eq_pattern (b : BitVec 64) :
    (field b).toNat = b.toNat % signBit / hiddenBit := by
  rw [toNat_field]
  simp only [signBit, hiddenBit, Nat.pow_eq, Nat.reducePow]
  omega

theorem fraction_eq_pattern (b : BitVec 64) :
    (fraction b).toNat = b.toNat % signBit % hiddenBit := by
  rw [toNat_fraction]
  simp only [signBit, hiddenBit, Nat.pow_eq, Nat.reducePow]
  omega

theorem field_eq_top_iff (b : BitVec 64) :
    field b = -1#11 ↔ ¬ b.toNat % signBit < infinityPattern := by
  rw [← BitVec.toNat_inj, field_eq_pattern]
  simp only [infinityPattern, signBit, hiddenBit, Nat.pow_eq, Nat.reducePow, BitVec.reduceNeg,
    BitVec.reduceToNat]
  omega

theorem unpack_eq (x : Float) : x.toModel.unpack = (form x).unpacked := by
  have hbits : x.toBits.toNat = x.toModel.toBits.toBitVec.toNat := rfl
  unfold Float.Model.unpack UnpackedFloat.unpack form
  rw [hbits]
  generalize x.toModel.toBits.toBitVec = b
  have hfield := field_eq_pattern b
  have hfraction := fraction_eq_pattern b
  have htop := field_eq_top_iff b
  have hlowest : field b = 0#11 ↔ b.toNat % signBit / hiddenBit = 0 := by
    rw [← BitVec.toNat_inj, hfield]
    rfl
  have hzero : fraction b = 0#52 ↔ b.toNat % signBit % hiddenBit = 0 := by
    rw [← BitVec.toNat_inj, hfraction]
    rfl
  have hbias : Format.binary64.exponentBias = 1023 := rfl
  have hpattern : b.toNat % signBit < 2048 * hiddenBit := Nat.mod_lt _ (by decide)
  simp only [ofBitVec_unpackSign, hzero, hlowest, htop, ite_not, hbias]
  generalize b.toNat % signBit = pattern at *
  split
  · rw [Form.unpacked, Magnitude.ofPattern]
    by_cases hlow : pattern / hiddenBit = 0
    · simp only [if_pos hlow]
      unfold Magnitude.unpacked
      split
      · rfl
      · congr 1
        change ((field b).toNat : Int) - _ + 1 = _
        rw [hfield, hlow]
        rfl
    · have hvalue : (1#1 ++ fraction b).toNat = hiddenBit + (fraction b).toNat := by
        rw [BitVec.toNat_append, ← Nat.shiftLeft_add_eq_or_of_lt (fraction b).isLt]
        rfl
      simp only [if_neg hlow]
      unfold Magnitude.unpacked
      rw [dif_neg (by simp [hiddenBit])]
      congr 1
      · exact hvalue.trans (by rw [hfraction])
      · change ((field b).toNat : Int) - _ = _
        rw [hfield]
        dsimp only
        omega
  · have hsame : pattern % hiddenBit = 0 ↔ pattern = infinityPattern := by
      simp only [infinityPattern, hiddenBit, Nat.pow_eq, Nat.reducePow] at *
      omega
    simp only [hsame]
    split <;> rfl

/-! ## Comparing -/

def signedUnits (negative : Bool) (n : Nat) : ℤ := if negative then -n else n

namespace Magnitude

variable {m n : Magnitude}

theorem units_eq_zero_iff : m.units = 0 ↔ m.significand = 0 := by
  have hpow : 0 < Nat.pow 2 m.exponent := Nat.two_pow_pos _
  rw [units, Nat.mul_eq_zero]
  omega

theorem units_lt_of_exponent_lt (hm : m.Normal) (hn : n.Normal) (h : m.exponent < n.exponent) :
    m.units < n.units := by
  have hhidden := hn.hidden (Nat.zero_lt_of_lt h)
  have hpow : Nat.pow 2 (m.exponent + 1) ≤ Nat.pow 2 n.exponent :=
    Nat.pow_le_pow_right (by decide) h
  have hpos : 0 < Nat.pow 2 m.exponent := Nat.two_pow_pos _
  calc m.units < 2 * hiddenBit * Nat.pow 2 m.exponent := Nat.mul_lt_mul_of_pos_right hm.lt hpos
    _ = hiddenBit * Nat.pow 2 (m.exponent + 1) := by rw [Nat.pow_eq, Nat.pow_eq, pow_succ]; ring
    _ ≤ n.units := Nat.mul_le_mul hhidden hpow

theorem compare_units (hm : m.Normal) (hn : n.Normal) :
    (compare ((m.exponent : ℤ) - 1074) (n.exponent - 1074)).then
      (compare m.significand n.significand) = compare m.units n.units := by
  rcases Nat.lt_trichotomy m.exponent n.exponent with h | h | h
  · rw [compare_lt_iff_lt.2 (units_lt_of_exponent_lt hm hn h), compare_lt_iff_lt.2 (by omega)]
    rfl
  · have hpos : 0 < Nat.pow 2 n.exponent := Nat.two_pow_pos _
    rw [h, compare_eq_iff_eq.2 rfl, units, units, h, ← cmp_eq_compare, ← cmp_eq_compare,
      cmp_mul_pos_right hpos]
    rfl
  · rw [compare_gt_iff_gt.2 (units_lt_of_exponent_lt hn hm h), compare_gt_iff_gt.2 (by omega)]
    rfl

theorem compare_unpacked (hm : m.Normal) (hn : n.Normal) (p q : Bool) :
    (m.unpacked (signOf p)).compare (n.unpacked (signOf q)) =
      some (compare (signedUnits p m.units) (signedUnits q n.units)) := by
  have hcast : compare m.units n.units = compare (m.units : ℤ) n.units := by
    rw [← cmp_eq_compare, ← cmp_eq_compare]
    exact (Nat.strictMono_cast.cmp_map_eq _ _).symm
  have hswap : (compare (m.units : ℤ) n.units).swap = compare (-(m.units : ℤ)) (-n.units) := by
    have hanti : StrictAnti fun z : ℤ => -z := fun _ _ => neg_lt_neg
    rw [← cmp_eq_compare, ← cmp_eq_compare, cmp_swap]
    exact (hanti.cmp_map_eq _ _).symm
  have hunits := (compare_units hm hn).trans hcast
  by_cases hm0 : m.significand = 0 <;> by_cases hn0 : n.significand = 0
  · rw [unpacked, dif_pos hm0, unpacked, dif_pos hn0, units_eq_zero_iff.2 hm0,
      units_eq_zero_iff.2 hn0]
    cases p <;> cases q <;> rfl
  · have hpos := Nat.pos_of_ne_zero (mt units_eq_zero_iff.1 hn0)
    rw [unpacked, dif_pos hm0, unpacked, dif_neg hn0, units_eq_zero_iff.2 hm0]
    cases q
    · rw [compare_lt_iff_lt.2 (by cases p <;> simpa [signedUnits] using hpos)]
      rfl
    · rw [compare_gt_iff_gt.2 (by cases p <;> simpa [signedUnits] using hpos)]
      rfl
  · have hpos := Nat.pos_of_ne_zero (mt units_eq_zero_iff.1 hm0)
    rw [unpacked, dif_neg hm0, unpacked, dif_pos hn0, units_eq_zero_iff.2 hn0]
    cases p
    · rw [compare_gt_iff_gt.2 (by cases q <;> simpa [signedUnits] using hpos)]
      rfl
    · rw [compare_lt_iff_lt.2 (by cases q <;> simpa [signedUnits] using hpos)]
      rfl
  · have hmpos := Nat.pos_of_ne_zero (mt units_eq_zero_iff.1 hm0)
    have hnpos := Nat.pos_of_ne_zero (mt units_eq_zero_iff.1 hn0)
    rw [unpacked, dif_neg hm0, unpacked, dif_neg hn0]
    cases p <;> cases q
    · exact congrArg some hunits
    · have hgt : (m.units : ℤ) > -n.units := by omega
      exact congrArg some (compare_gt_iff_gt.2 hgt).symm
    · have hlt : -(m.units : ℤ) < n.units := by omega
      exact congrArg some (compare_lt_iff_lt.2 hlt).symm
    · exact congrArg some ((congrArg Ordering.swap hunits).trans hswap)

end Magnitude

theorem exists_pattern_of_form {x : Float} {negative : Bool} {size : Magnitude}
    (h : form x = .finite negative size) :
    ∃ pattern < infinityPattern, size = .ofPattern pattern := by
  unfold form at h
  dsimp only at h
  split at h
  · next hpattern =>
    cases h
    exact ⟨_, hpattern, rfl⟩
  · split at h <;> cases h

theorem normal_of_form {x : Float} {negative : Bool} {size : Magnitude}
    (h : form x = .finite negative size) : size.Normal := by
  obtain ⟨pattern, -, rfl⟩ := exists_pattern_of_form h
  exact Magnitude.normal_ofPattern pattern

/-! ## Values -/

theorem one_positive : 0 < one := by decide +kernel

theorem one_eq_pow {n : Nat} (h : n = 1074) : one = Nat.pow 2 n := by
  rw [h]
  decide +kernel

/-- So many units, as a number. -/
def ofUnits (units : ℤ) : ℚ := units / one

theorem ofUnits_strictMono : StrictMono ofUnits := by
  intro a b h
  have hone : (0 : ℚ) < one := Nat.cast_pos.2 one_positive
  exact div_lt_div_of_pos_right (Int.cast_lt.2 h) hone

@[simp] theorem ofUnits_zero : ofUnits 0 = 0 := by rw [ofUnits, Int.cast_zero, zero_div]

theorem floor_ofUnits (units : Nat) : ⌊ofUnits units⌋₊ = units / one := by
  rw [ofUnits, Int.cast_natCast, Nat.floor_div_natCast, Nat.floor_natCast]

theorem ofUnits_mul_one (k : Nat) : ofUnits (k * one : Nat) = k := by
  have hone : (one : ℚ) ≠ 0 := Nat.cast_ne_zero.2 (Nat.ne_of_gt one_positive)
  rw [ofUnits, Int.cast_natCast, Nat.cast_mul, mul_div_cancel_right₀ _ hone]

def Form.value? : Form → Option ℚ
  | finite negative size => some (ofUnits (signedUnits negative size.units))
  | _ => none

/-- The number that a double is, if it is one. -/
def value? (x : Float) : Option ℚ := (form x).value?

theorem value?_eq_some_iff {x : Float} {v : ℚ} : value? x = some v ↔ ∃ negative size,
    form x = .finite negative size ∧ ofUnits (signedUnits negative size.units) = v := by
  unfold value?
  cases form x <;> simp [Form.value?]

theorem compare_eq {x y : Float} {a b : ℚ} (hx : value? x = some a) (hy : value? y = some b) :
    x.toModel.unpack.compare y.toModel.unpack = some (compare a b) := by
  obtain ⟨p, m, hm, rfl⟩ := value?_eq_some_iff.1 hx
  obtain ⟨q, n, hn, rfl⟩ := value?_eq_some_iff.1 hy
  rw [unpack_eq, unpack_eq, hm, hn]
  refine (Magnitude.compare_unpacked (normal_of_form hm) (normal_of_form hn) p q).trans ?_
  rw [← cmp_eq_compare, ← cmp_eq_compare, ofUnits_strictMono.cmp_map_eq]

theorem lt_iff {x y : Float} {a b : ℚ} (hx : value? x = some a) (hy : value? y = some b) :
    x < y ↔ a < b := by
  have hlt : x < y ↔ (x.toModel.unpack.compare y.toModel.unpack == some .lt) = true := by
    show decide _ = true ↔ _
    rw [decide_eq_true_iff]
    rfl
  rw [hlt, compare_eq hx hy, beq_iff_eq, Option.some_inj, compare_lt_iff_lt]

theorem beq_iff {x y : Float} {a b : ℚ} (hx : value? x = some a) (hy : value? y = some b) :
    (x == y) = true ↔ a = b := by
  have hbeq : (x == y) = (x.toModel.unpack.compare y.toModel.unpack == some .eq) := rfl
  rw [hbeq, compare_eq hx hy, beq_iff_eq, Option.some_inj, compare_eq_iff_eq]

theorem Magnitude.unpacked_isFinite (m : Magnitude) (sign : Sign) :
    (m.unpacked sign).isFinite = true ∧ (m.unpacked sign).isNaN = false ∧
      (m.unpacked sign).isInf = false := by
  unfold unpacked
  split <;> exact ⟨rfl, rfl, rfl⟩

theorem isFinite_eq (x : Float) : x.isFinite = (value? x).isSome := by
  have hfinite : x.isFinite = (form x).unpacked.isFinite := congrArg _ (unpack_eq x)
  rw [hfinite, value?]
  cases form x with
  | nan | infinite => rfl
  | finite negative size => exact (size.unpacked_isFinite _).1

theorem value?_eq_none_iff {x : Float} : value? x = none ↔ x.isNaN ∨ x.isInf := by
  have hnan : x.isNaN = (form x).unpacked.isNaN := congrArg _ (unpack_eq x)
  have hinf : x.isInf = (form x).unpacked.isInf := congrArg _ (unpack_eq x)
  rw [hnan, hinf, value?]
  cases form x with
  | nan | infinite => simp [Form.value?, Form.unpacked, UnpackedFloat.isNaN, UnpackedFloat.isInf]
  | finite negative size => simp [Form.value?, Form.unpacked, size.unpacked_isFinite]

/-! ## Whole numbers -/

namespace Magnitude

variable {m : Magnitude}

theorem ofPattern_pattern (hm : m.Normal) :
    ofPattern (m.exponent * hiddenBit + m.significand) = m := by
  obtain ⟨s, e⟩ := m
  have hlt : s < 2 * hiddenBit := hm.lt
  have hhidden : 0 < e → hiddenBit ≤ s := hm.hidden
  have hpos : 0 < hiddenBit := by decide
  unfold ofPattern
  by_cases hs : s < hiddenBit
  · obtain rfl : e = 0 := by omega
    simp [Nat.div_eq_of_lt hs, Nat.mod_eq_of_lt hs]
  · have hsum : e * hiddenBit + s = (s - hiddenBit) + (e + 1) * hiddenBit := by
      rw [Nat.add_mul]
      omega
    have hrest : s - hiddenBit < hiddenBit := by omega
    rw [hsum]
    simp only [Nat.add_mul_div_right _ _ hpos, Nat.add_mul_mod_self_right,
      Nat.div_eq_of_lt hrest, Nat.mod_eq_of_lt hrest]
    rw [if_neg (by omega), Nat.zero_add, Nat.add_sub_cancel, Nat.add_sub_cancel' (by omega)]

theorem whole_mul_one {k : Nat} (h : m.exponent = k + 1074) :
    m.whole = m.significand * Nat.pow 2 k ∧ m.units = m.whole * one := by
  have hunits : m.units = m.significand * Nat.pow 2 k * one := by
    obtain ⟨n, hn⟩ : ∃ n, n = 1074 := ⟨_, rfl⟩
    rw [units, h, ← hn, one_eq_pow hn, Nat.mul_assoc]
    exact congrArg _ (Nat.pow_add 2 k n)
  have hwhole : m.whole = m.significand * Nat.pow 2 k := by
    rw [whole, hunits, Nat.mul_div_cancel _ one_positive]
  exact ⟨hwhole, by rw [hunits, hwhole]⟩

theorem one_eq_mul {d e : Nat} (h : d + e = 1074) : one = Nat.pow 2 d * Nat.pow 2 e := by
  rw [one_eq_pow h]
  exact Nat.pow_add 2 d e

theorem whole_eq_div {d : Nat} (h : d + m.exponent = 1074) :
    m.whole = m.significand / Nat.pow 2 d := by
  have hpos : 0 < Nat.pow 2 m.exponent := Nat.two_pow_pos _
  rw [whole, units, one_eq_mul h, Nat.mul_div_mul_right _ _ hpos]

theorem exists_whole {pattern : Nat} (h : pattern < infinityPattern) :
    ∃ cut < infinityPattern, (ofPattern cut).units = (ofPattern pattern).whole * one := by
  have hm := normal_ofPattern pattern
  have hpattern := pattern_eq pattern
  generalize ofPattern pattern = m at *
  by_cases hlarge : 1074 ≤ m.exponent
  · obtain ⟨k, hk⟩ := Nat.exists_eq_add_of_le' hlarge
    refine ⟨pattern, h, ?_⟩
    rw [← (whole_mul_one hk).2, ← hpattern, ofPattern_pattern hm]
  obtain ⟨d, hd⟩ := Nat.exists_eq_add_of_le' (Nat.le_of_not_le hlarge)
  have hwhole := whole_eq_div hd.symm
  have hdiv := Nat.div_mul_le_self m.significand (Nat.pow 2 d)
  rw [← hwhole] at hdiv
  by_cases hsmall : m.significand < Nat.pow 2 d
  · refine ⟨0, by decide, ?_⟩
    rw [hwhole, Nat.div_eq_of_lt hsmall, Nat.zero_mul]
    rfl
  -- The bits of the fraction are dropped, and the hidden bit is none of them.
  · have hlow : d ≤ 52 := by
      have hlt : Nat.pow 2 d < Nat.pow 2 53 := Nat.lt_of_le_of_lt (Nat.not_lt.1 hsmall) hm.lt
      exact Nat.le_of_lt_succ ((Nat.pow_lt_pow_iff_right (by decide)).1 hlt)
    have hhidden : hiddenBit ≤ m.whole * Nat.pow 2 d := by
      have hsplit : hiddenBit = Nat.pow 2 (52 - d) * Nat.pow 2 d := by
        rw [hiddenBit, Nat.pow_eq, Nat.pow_eq, Nat.pow_eq, ← pow_add, Nat.sub_add_cancel hlow]
      rw [hsplit]
      refine Nat.mul_le_mul_right _ ?_
      have hpos : 0 < Nat.pow 2 d := Nat.two_pow_pos _
      rw [hwhole, Nat.le_div_iff_mul_le hpos, ← hsplit]
      exact hm.hidden (by omega)
    have hcut : Normal ⟨m.whole * Nat.pow 2 d, m.exponent⟩ :=
      ⟨Nat.lt_of_le_of_lt hdiv hm.lt, fun _ => hhidden⟩
    refine ⟨m.exponent * hiddenBit + m.whole * Nat.pow 2 d, by omega, ?_⟩
    rw [ofPattern_pattern hcut, units, one_eq_mul hd.symm, Nat.mul_assoc]

end Magnitude

/-! ## Converting -/

theorem mantissa_shiftRight (em : UnpackedFloat.ExtendedMantissa) (n : Nat) :
    (em >>> n).mantissa = em.mantissa / 2 ^ n := by
  show (n.repeat UnpackedFloat.ExtendedMantissa.shiftRightOne em).mantissa = _
  induction n with
  | zero => simp [Nat.repeat]
  | succ n ih =>
    rw [Nat.repeat, UnpackedFloat.ExtendedMantissa.shiftRightOne, ih, Nat.div_div_eq_div_mul,
      pow_succ]

theorem Magnitude.toInt_unpacked (m : Magnitude) (sign : Sign) (low high : Int) :
    (m.unpacked sign).toInt low high = sign.apply m.whole := by
  by_cases hzero : m.significand = 0
  · have hwhole : m.whole = 0 := by rw [whole, units_eq_zero_iff.2 hzero, Nat.zero_div]
    rw [unpacked, dif_pos hzero, hwhole]
    cases sign <;> rfl
  · rw [unpacked, dif_neg hzero]
    show sign.apply (UnpackedFloat.ExtendedMantissa.mantissa _) = _
    rw [mantissa_shiftRight]
    by_cases hlarge : 1074 ≤ m.exponent
    · obtain ⟨k, hk⟩ := Nat.exists_eq_add_of_le' hlarge
      have hleft : ((m.exponent : ℤ) - 1074 - 0).toNat = k := by omega
      have hright : (0 - ((m.exponent : ℤ) - 1074 - (k : ℕ))).toNat = 0 := by omega
      rw [hleft, hright, (whole_mul_one hk).1, pow_zero, Nat.div_one, Nat.shiftLeft_eq]
      rfl
    · obtain ⟨d, hd⟩ := Nat.exists_eq_add_of_le' (Nat.le_of_not_le hlarge)
      have hleft : ((m.exponent : ℤ) - 1074 - 0).toNat = 0 := by omega
      have hright : (0 - ((m.exponent : ℤ) - 1074 - (0 : ℕ))).toNat = d := by omega
      rw [hleft, hright, whole_eq_div hd.symm, Nat.shiftLeft_zero]
      rfl

theorem positive_or_zero {negative : Bool} {units : Nat}
    (h : 0 ≤ ofUnits (signedUnits negative units)) : negative = false ∨ units = 0 := by
  cases negative with
  | false => exact .inl rfl
  | true =>
    rw [← ofUnits_zero] at h
    have hle : 0 ≤ -(units : ℤ) := ofUnits_strictMono.le_iff_le.1 h
    exact .inr (by omega)

theorem value?_truncate {x : Float} {v : ℚ} (hv : value? x = some v) (hpos : 0 ≤ v) :
    value? (truncate x) = some (⌊v⌋₊ : ℚ) := by
  obtain ⟨negative, size, hform, rfl⟩ := value?_eq_some_iff.1 hv
  unfold truncate
  rw [hform]
  cases negative with
  | false =>
    obtain ⟨pattern, hpattern, rfl⟩ := exists_pattern_of_form hform
    obtain ⟨cut, hcut, hunits⟩ := Magnitude.exists_whole hpattern
    have hholds := (Magnitude.ofPattern cut).holds_units
    rw [hunits] at hholds
    have hnearest := nearest_of_holds hcut Nat.one_pos hholds
    refine value?_eq_some_iff.2 ⟨false, .ofPattern cut, ?_, ?_⟩
    · dsimp only
      rw [hnearest, if_neg (by decide), form_ofBits hcut]
    · rw [hunits]
      exact (ofUnits_mul_one _).trans (congrArg _ (floor_ofUnits _).symm)
  | true =>
    have hunits : size.units = 0 := (positive_or_zero hpos).resolve_left (by decide)
    have hwhole : size.whole = 0 := by rw [Magnitude.whole, hunits, Nat.zero_div]
    have hzero : form (-(Float.ofBits (nearest 0 1).toUInt64)) = .finite true ⟨0, 0⟩ := by
      decide +kernel
    refine value?_eq_some_iff.2 ⟨true, ⟨0, 0⟩, ?_, ?_⟩
    · dsimp only
      rw [hwhole, if_pos rfl, hzero]
    · rw [hunits]
      simp [signedUnits, Magnitude.units]

theorem toNat_toUInt64 {x : Float} {v : ℚ} (hv : value? x = some v) (hpos : 0 ≤ v)
    (hlt : ⌊v⌋₊ < UInt64.size) : x.toUInt64.toNat = ⌊v⌋₊ := by
  obtain ⟨negative, size, hform, rfl⟩ := value?_eq_some_iff.1 hv
  have hwhole :
      (signOf negative).apply size.whole = ⌊ofUnits (signedUnits negative size.units)⌋₊ := by
    rcases positive_or_zero hpos with rfl | hunits
    · exact congrArg Nat.cast (floor_ofUnits _).symm
    · rw [Magnitude.whole, hunits, Nat.zero_div]
      cases negative <;> simp [signedUnits, signOf, Sign.apply]
  have hconvert : x.toUInt64 = .ofNatClamp (x.toModel.unpack.toInt 0 (UInt64.size - 1)).toNat := rfl
  rw [hconvert, unpack_eq, hform, Form.unpacked, Magnitude.toInt_unpacked, hwhole,
    Int.toNat_natCast]
  unfold UInt64.ofNatClamp
  rw [dif_pos hlt]
  rfl

theorem value?_zero : value? 0 = some 0 := by
  have hform : form 0 = .finite false ⟨0, 0⟩ := by decide +kernel
  rw [value?, hform]
  simp [Form.value?, signedUnits, Magnitude.units]

end Treewalk.Number
