import Treewalk.Proofs.Number.Values

/-!
# The nearest double

The patterns of doubles are ordered like the numbers that they stand for. The basin of a double ends
halfway to the doubles before and after it, so for what is in it no double is nearer:
`isNearest_of_holds`. It has no other number on the grid of the double, and so a double that is not
whole has no whole number in its basin.
-/

namespace Treewalk.Number

namespace Magnitude

/-! ## Patterns in order -/

theorem ofPattern_succ (pattern : Nat) :
    (ofPattern (pattern + 1) =
        ⟨(ofPattern pattern).significand + 1, (ofPattern pattern).exponent⟩) ∨
      ((ofPattern pattern).significand + 1 = 2 * hiddenBit ∧
        ofPattern (pattern + 1) = ⟨hiddenBit, (ofPattern pattern).exponent + 1⟩) := by
  have hm := normal_ofPattern pattern
  have hpattern := pattern_eq pattern
  generalize ofPattern pattern = m at *
  by_cases hlast : m.significand + 1 < 2 * hiddenBit
  · have hnext : Normal ⟨m.significand + 1, m.exponent⟩ :=
      ⟨hlast, fun he => Nat.le_succ_of_le (hm.hidden he)⟩
    refine .inl ?_
    rw [← hpattern, Nat.add_assoc]
    exact ofPattern_pattern hnext
  · have hfull : m.significand + 1 = 2 * hiddenBit := Nat.le_antisymm hm.lt (Nat.not_lt.1 hlast)
    have hnext : Normal ⟨hiddenBit, m.exponent + 1⟩ := ⟨by dsimp only; decide, fun _ => Nat.le_refl _⟩
    have hsum : pattern + 1 = (m.exponent + 1) * hiddenBit + hiddenBit := by
      rw [← hpattern, Nat.add_assoc, hfull, Nat.add_mul]
      omega
    exact .inr ⟨hfull, by rw [hsum, ofPattern_pattern hnext]⟩

theorem units_succ (pattern : Nat) : (ofPattern (pattern + 1)).units =
    (ofPattern pattern).units + Nat.pow 2 (ofPattern pattern).exponent := by
  have hsum : (ofPattern pattern).units + Nat.pow 2 (ofPattern pattern).exponent =
      ((ofPattern pattern).significand + 1) * Nat.pow 2 (ofPattern pattern).exponent := by
    rw [units, Nat.add_mul, Nat.one_mul]
  rw [hsum]
  rcases ofPattern_succ pattern with hnext | ⟨hfull, hnext⟩
  · rw [hnext, units]
  · rw [hnext, hfull, units, Nat.pow_eq, Nat.pow_eq, Nat.pow_succ]
    ring

theorem units_strictMono : StrictMono fun pattern => (ofPattern pattern).units := by
  refine strictMono_nat_of_lt_succ fun pattern => ?_
  have hstep : 0 < Nat.pow 2 (ofPattern pattern).exponent := Nat.two_pow_pos _
  rw [units_succ]
  omega

/-! ## Basins end halfway -/

theorem basin_high (pattern : Nat) : (ofPattern pattern).basin.high =
    2 * ((ofPattern pattern).units + (ofPattern (pattern + 1)).units) := by
  rw [units_succ, basin]
  dsimp only
  ring

theorem basin_low (pattern : Nat) : (ofPattern (pattern + 1)).basin.low =
    2 * ((ofPattern pattern).units + (ofPattern (pattern + 1)).units) := by
  have hhidden := (normal_ofPattern pattern).hidden
  have hunits := units_succ pattern
  simp only [basin]
  rcases ofPattern_succ pattern with hnext | ⟨-, hnext⟩
  · have hsparse : ¬ ((ofPattern (pattern + 1)).significand = hiddenBit ∧
        0 < (ofPattern (pattern + 1)).exponent) := by
      rw [hnext]
      rintro ⟨hsame, he⟩
      have := hhidden he
      dsimp only at hsame
      omega
    rw [if_neg hsparse, hunits, hnext]
    dsimp only
    omega
  · rw [if_pos ⟨by rw [hnext], by rw [hnext]; exact Nat.succ_pos _⟩, hunits, hnext, Nat.pow_eq,
      Nat.pow_eq, Nat.pow_succ]
    omega

theorem basin_closed (pattern : Nat) :
    (ofPattern pattern).basin.closed = decide (pattern % 2 = 0) := by
  have hpattern := pattern_eq pattern
  have heven : hiddenBit = 2 * (hiddenBit / 2) := by decide
  rw [heven, ← Nat.mul_assoc, Nat.mul_comm _ 2, Nat.mul_assoc] at hpattern
  unfold basin
  dsimp only
  congr 2
  omega

/-! ## Whole numbers in a basin -/

variable {m : Magnitude}

theorem eq_significand_of_holds {k : Nat} (h : m.basin.Holds (k * Nat.pow 2 m.exponent) 1) :
    k = m.significand := by
  have hnear := near_of_holds h
  have hpos : 0 < 1 * Nat.pow 2 m.exponent := Nat.mul_pos Nat.one_pos (Nat.two_pow_pos _)
  obtain ⟨hlow, hhigh, -, -⟩ := hnear
  rw [Nat.one_mul] at *
  generalize Nat.pow 2 m.exponent = step at *
  apply Nat.le_antisymm
  · by_contra hlt
    have := Nat.mul_le_mul_right step (Nat.succ_le_of_lt (Nat.lt_of_not_le hlt))
    rw [Nat.succ_mul] at this
    omega
  · by_contra hlt
    have := Nat.mul_le_mul_right step (Nat.succ_le_of_lt (Nat.lt_of_not_le hlt))
    rw [Nat.succ_mul] at this
    omega

theorem isWhole_iff : m.isWhole ↔ m.whole * one = m.units := by
  rw [isWhole, decide_eq_true_eq]
  exact ⟨fun h => Nat.div_mul_cancel (Nat.dvd_of_mod_eq_zero h),
    fun h => Nat.mod_eq_zero_of_dvd ⟨m.whole, by rw [Nat.mul_comm, h]⟩⟩

/-- Below `2 ^ 53` the whole numbers are on the grid of every double, and above it every double is
whole. -/
theorem isWhole_of_holds {k : Nat} (h : m.basin.Holds (k * one) 1) : m.isWhole := by
  by_cases hlarge : 1074 ≤ m.exponent
  · obtain ⟨j, hj⟩ := Nat.exists_eq_add_of_le' hlarge
    exact isWhole_iff.2 (whole_mul_one hj).2.symm
  · obtain ⟨d, hd⟩ := Nat.exists_eq_add_of_le' (Nat.le_of_not_le hlarge)
    rw [one_eq_mul hd.symm, ← Nat.mul_assoc] at h
    have hunits : m.units = k * one := by
      rw [units, ← eq_significand_of_holds h, one_eq_mul hd.symm, Nat.mul_assoc]
    rw [isWhole_iff, whole, hunits, Nat.mul_div_cancel _ one_positive]

end Magnitude

/-! ## Rounding -/

/-- The number that a pattern stands for. Infinity counts as the number that would come after the
largest double. -/
def patternValue (pattern : Nat) : ℚ := ofUnits (Magnitude.ofPattern pattern).units

/-- No other pattern is nearer to `q`, and if one is as near this one is even. -/
def IsNearest (q : ℚ) (pattern : Nat) : Prop :=
  pattern ≤ infinityPattern ∧ ∀ other ≤ infinityPattern, other ≠ pattern →
    |patternValue pattern - q| < |patternValue other - q| ∨
      |patternValue pattern - q| = |patternValue other - q| ∧ pattern % 2 = 0

theorem patternValue_strictMono : StrictMono patternValue := fun _ _ h =>
  ofUnits_strictMono (Int.ofNat_lt.2 (Magnitude.units_strictMono h))

theorem abs_sub_lt_of_below {a b q : ℚ} (hab : a < b) (h : 2 * q < a + b) : |a - q| < |b - q| := by
  rw [abs_of_pos (by linarith : 0 < b - q), abs_lt]
  constructor <;> linarith

theorem abs_sub_lt_of_above {a b q : ℚ} (hab : a < b) (h : a + b < 2 * q) : |b - q| < |a - q| := by
  rw [abs_of_neg (by linarith : a - q < 0), abs_lt]
  constructor <;> linarith

theorem abs_sub_eq_of_middle {a b q : ℚ} (h : 2 * q = a + b) : |a - q| = |b - q| := by
  rw [← abs_neg, show -(a - q) = b - q by linarith]

theorem ofUnits_double_add (a b : Nat) :
    ofUnits (2 * (a + b) : Nat) = 2 * (ofUnits a + ofUnits b) := by
  simp only [ofUnits, Int.cast_natCast]
  rw [Nat.cast_mul, Nat.cast_add, ← add_div, mul_div_assoc, Nat.cast_ofNat]

section

variable {num den : Nat} (hden : 0 < den)
include hden

theorem ofUnits_le_iff {k : Nat} : ofUnits k ≤ 4 * (num / den : ℚ) ↔ k * den ≤ 4 * (num * one) := by
  have hone : (0 : ℚ) < one := Nat.cast_pos.2 one_positive
  rw [ofUnits, Int.cast_natCast, ← mul_div_assoc, div_le_div_iff₀ hone (Nat.cast_pos.2 hden),
    mul_assoc, ← Nat.cast_mul, ← Nat.cast_mul, ← Nat.cast_ofNat, ← Nat.cast_mul, Nat.cast_le]

theorem le_ofUnits_iff {k : Nat} : 4 * (num / den : ℚ) ≤ ofUnits k ↔ 4 * (num * one) ≤ k * den := by
  have hone : (0 : ℚ) < one := Nat.cast_pos.2 one_positive
  rw [ofUnits, Int.cast_natCast, ← mul_div_assoc, div_le_div_iff₀ (Nat.cast_pos.2 hden) hone,
    mul_assoc, ← Nat.cast_mul, ← Nat.cast_mul, ← Nat.cast_ofNat, ← Nat.cast_mul, Nat.cast_le]

/-- A basin reaches halfway to the next pattern, and does not hold that point if it is open. -/
theorem le_halfway_of_holds {pattern : Nat}
    (h : (Magnitude.ofPattern pattern).basin.Holds (num * one) den) :
    2 * (num / den : ℚ) ≤ patternValue pattern + patternValue (pattern + 1) ∧
      (2 * (num / den : ℚ) = patternValue pattern + patternValue (pattern + 1) →
        pattern % 2 = 0) := by
  obtain ⟨-, hhigh, hopen⟩ := h
  have hle := (le_ofUnits_iff hden).2 hhigh
  rw [Magnitude.basin_high, ofUnits_double_add] at hle
  refine ⟨by unfold patternValue; linarith, fun hmiddle => ?_⟩
  by_contra hodd
  rw [Magnitude.basin_closed, decide_eq_false hodd] at hopen
  refine absurd ((ofUnits_le_iff hden).1 (le_of_eq ?_)) (Nat.not_le.2 (hopen rfl).2)
  rw [Magnitude.basin_high, ofUnits_double_add]
  unfold patternValue at hmiddle
  linarith

theorem halfway_le_of_holds {pattern : Nat}
    (h : (Magnitude.ofPattern (pattern + 1)).basin.Holds (num * one) den) :
    patternValue pattern + patternValue (pattern + 1) ≤ 2 * (num / den : ℚ) ∧
      (patternValue pattern + patternValue (pattern + 1) = 2 * (num / den : ℚ) →
        (pattern + 1) % 2 = 0) := by
  obtain ⟨hlow, -, hopen⟩ := h
  have hle := (ofUnits_le_iff hden).2 hlow
  rw [Magnitude.basin_low, ofUnits_double_add] at hle
  refine ⟨by unfold patternValue; linarith, fun hmiddle => ?_⟩
  by_contra hodd
  rw [Magnitude.basin_closed, decide_eq_false hodd] at hopen
  refine absurd ((le_ofUnits_iff hden).1 (le_of_eq ?_)) (Nat.not_le.2 (hopen rfl).1)
  rw [Magnitude.basin_low, ofUnits_double_add]
  unfold patternValue at hmiddle
  linarith

theorem isNearest_of_holds {pattern : Nat} (hpattern : pattern ≤ infinityPattern)
    (h : (Magnitude.ofPattern pattern).basin.Holds (num * one) den) :
    IsNearest (num / den) pattern := by
  refine ⟨hpattern, fun other _ hne => ?_⟩
  rcases Nat.lt_or_gt_of_ne hne with hless | hmore
  · obtain ⟨before, rfl⟩ := Nat.exists_eq_add_one.2 (Nat.zero_lt_of_lt hless)
    obtain ⟨hle, hmiddle⟩ := halfway_le_of_holds hden h
    have hother := patternValue_strictMono.monotone (Nat.le_of_lt_succ hless)
    have hlt := patternValue_strictMono hless
    rcases lt_or_eq_of_le hle with hpast | heq
    · exact .inl (abs_sub_lt_of_above hlt (by linarith))
    · rcases lt_or_eq_of_le hother with hfar | hsame
      · exact .inl (abs_sub_lt_of_above hlt (by linarith))
      · exact .inr ⟨(abs_sub_eq_of_middle (by linarith)).symm, hmiddle heq⟩
  · obtain ⟨hle, hmiddle⟩ := le_halfway_of_holds hden h
    have hother := patternValue_strictMono.monotone (Nat.succ_le_of_lt hmore)
    have hlt := patternValue_strictMono hmore
    rcases lt_or_eq_of_le hle with hbefore | heq
    · exact .inl (abs_sub_lt_of_below hlt (by linarith))
    · rcases lt_or_eq_of_le hother with hfar | hsame
      · exact .inl (abs_sub_lt_of_below hlt (by linarith))
      · exact .inr ⟨abs_sub_eq_of_middle (by linarith), hmiddle heq⟩

end

theorem IsNearest.unique {q : ℚ} {a b : Nat} (ha : IsNearest q a) (hb : IsNearest q b) : a = b := by
  wlog hle : a ≤ b generalizing a b
  · exact (this hb ha (Nat.le_of_not_le hle)).symm
  by_contra hne
  have hlt : a < b := Nat.lt_of_le_of_ne hle hne
  have hab := ha.2 b hb.1 (Ne.symm hne)
  have hba := hb.2 a ha.1 hne
  obtain ⟨hsame, ha2⟩ : |patternValue a - q| = |patternValue b - q| ∧ a % 2 = 0 :=
    hab.resolve_left fun h => hba.elim (lt_asymm h) fun h' => ne_of_lt h h'.1.symm
  obtain ⟨-, hb2⟩ : |patternValue b - q| = |patternValue a - q| ∧ b % 2 = 0 :=
    hba.resolve_left fun h => ne_of_lt h hsame.symm
  -- Two that are equally near have `q` in their middle, and an odd pattern between them is nearer.
  have hvalues := patternValue_strictMono hlt
  have hmiddle : patternValue a - q = -(patternValue b - q) :=
    (abs_eq_abs.1 hsame).resolve_left fun h => by linarith
  have hfirst : patternValue a < patternValue (a + 1) := patternValue_strictMono (Nat.lt_succ_self a)
  have hsecond : patternValue (a + 1) < patternValue b := patternValue_strictMono (by omega)
  have hnearer : |patternValue (a + 1) - q| < |patternValue a - q| := by
    rw [hmiddle, abs_neg, abs_of_pos (by linarith : 0 < patternValue b - q), abs_lt]
    constructor <;> linarith
  rcases ha.2 (a + 1) (Nat.le_trans hlt hb.1) (Nat.succ_ne_self a) with h | h
  · exact lt_asymm h hnearer
  · exact ne_of_lt hnearer h.1.symm

/-! ## Every fraction is rounded right -/

namespace Magnitude

theorem exists_between (num : Nat) {den : Nat} (hden : 0 < den) : ∃ pattern,
    (ofPattern pattern).units * den ≤ num ∧ num < (ofPattern (pattern + 1)).units * den := by
  have hsome : ∃ pattern, num < (ofPattern (pattern + 1)).units * den :=
    ⟨num, Nat.lt_of_lt_of_le (units_strictMono.le_apply (x := num + 1))
      (Nat.le_mul_of_pos_right _ hden)⟩
  refine ⟨Nat.find hsome, ?_, Nat.find_spec hsome⟩
  cases hfound : Nat.find hsome with
  | zero => simp [ofPattern, units]
  | succ before => exact Nat.not_lt.1 (Nat.find_min hsome (by omega))

section

variable {num den pattern : Nat} (hden : 0 < den)
include hden

theorem holds_of_le_halfway (hlow : (ofPattern pattern).units * den ≤ num)
    (hle : 2 * num ≤ ((ofPattern pattern).units + (ofPattern (pattern + 1)).units) * den)
    (htie : 2 * num = ((ofPattern pattern).units + (ofPattern (pattern + 1)).units) * den →
      pattern % 2 = 0) : (ofPattern pattern).basin.Holds num den := by
  have hbasin : (ofPattern pattern).basin.low ≤ 4 * (ofPattern pattern).units := Nat.sub_le _ _
  have hbelow := Nat.mul_le_mul_right den hbasin
  rw [Nat.mul_assoc] at hbelow
  rw [Basin.Holds, basin_high, basin_closed, Nat.mul_assoc 2, decide_eq_false_iff_not]
  refine ⟨by omega, by omega, fun hodd => ⟨?_, by omega⟩⟩
  have hpos : 0 < (ofPattern pattern).units := by
    have := units_strictMono (show 0 < pattern by omega)
    exact Nat.zero_lt_of_lt this
  have hstrict := Nat.mul_lt_mul_of_pos_right (basin_low_lt hpos) hden
  rw [Nat.mul_assoc] at hstrict
  omega

theorem holds_of_halfway_le (hhigh : num < (ofPattern (pattern + 1)).units * den)
    (hle : ((ofPattern pattern).units + (ofPattern (pattern + 1)).units) * den ≤ 2 * num)
    (htie : ((ofPattern pattern).units + (ofPattern (pattern + 1)).units) * den = 2 * num →
      (pattern + 1) % 2 = 0) : (ofPattern (pattern + 1)).basin.Holds num den := by
  have habove := Nat.mul_lt_mul_of_pos_right (lt_basin_high (ofPattern (pattern + 1))) hden
  rw [Nat.mul_assoc] at habove
  rw [Basin.Holds, basin_low, basin_closed, Nat.mul_assoc 2, decide_eq_false_iff_not]
  exact ⟨by omega, by omega, fun hodd => ⟨by omega, by omega⟩⟩

theorem exists_holds (num : Nat) : ∃ pattern, (ofPattern pattern).basin.Holds num den := by
  obtain ⟨pattern, hlow, hhigh⟩ := exists_between num hden
  rcases Nat.lt_trichotomy (2 * num)
    (((ofPattern pattern).units + (ofPattern (pattern + 1)).units) * den) with hless | htie | hmore
  · exact ⟨pattern, holds_of_le_halfway hden hlow (Nat.le_of_lt hless) (by omega)⟩
  · by_cases heven : pattern % 2 = 0
    · exact ⟨pattern, holds_of_le_halfway hden hlow (Nat.le_of_eq htie) fun _ => heven⟩
    · exact ⟨pattern + 1, holds_of_halfway_le hden hhigh (Nat.le_of_eq htie.symm) (by omega)⟩
  · exact ⟨pattern + 1, holds_of_halfway_le hden hhigh (Nat.le_of_lt hmore) (by omega)⟩

end

end Magnitude

/-- `nearest` rounds every fraction to the nearest double, a half to the even one, and what is too
large to infinity. -/
theorem isNearest_nearest (num : Nat) {den : Nat} (hden : 0 < den) :
    IsNearest (num / den) (nearest num den) := by
  obtain ⟨pattern, h⟩ := Magnitude.exists_holds hden (num * one)
  have hnearest := nearest_of_near (Magnitude.normal_ofPattern pattern) hden
    (Magnitude.near_of_holds h)
  rw [Magnitude.pattern_eq] at hnearest
  rw [hnearest]
  by_cases hle : pattern ≤ infinityPattern
  · rw [Nat.min_eq_right hle]
    exact isNearest_of_holds hden hle h
  · obtain ⟨before, rfl⟩ := Nat.exists_eq_add_one.2 (by omega : 0 < pattern)
    rw [Nat.min_eq_left (Nat.le_of_not_le hle)]
    refine ⟨Nat.le_refl _, fun other hother hne => .inl ?_⟩
    -- Halfway between two patterns that are not below infinity is above everything finite.
    have hpast := (halfway_le_of_holds hden h).1
    have hlast := patternValue_strictMono (Nat.lt_succ_self before)
    have hinfinity : patternValue infinityPattern ≤ patternValue before :=
      patternValue_strictMono.monotone (by omega)
    have hfinite := patternValue_strictMono (Nat.lt_of_le_of_ne hother hne)
    exact abs_sub_lt_of_above hfinite (by linarith)

theorem isNearest_iff {num den : Nat} (hden : 0 < den) {pattern : Nat} :
    IsNearest (num / den) pattern ↔ nearest num den = pattern :=
  ⟨(isNearest_nearest num hden).unique, fun h => h ▸ isNearest_nearest num hden⟩

end Treewalk.Number
