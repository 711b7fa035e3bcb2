import Treewalk.Number.Shortest

/-!
# Rounding to the nearest double

The basin of a double is what rounds to it: `nearest` gives a pattern back for every fraction in the
basin of its magnitude.
-/

namespace Treewalk.Number

/-! ## Quotients -/

theorem roundDiv_eq {n d s : Nat} (hd : 0 < d) (hlow : 2 * (s * d) ≤ 2 * n + d)
    (hhigh : 2 * n ≤ 2 * (s * d) + d)
    (hodd : s % 2 = 1 → 2 * (s * d) < 2 * n + d ∧ 2 * n < 2 * (s * d) + d) : roundDiv n d = s := by
  have hn : n / d * d + n % d = n := Nat.div_add_mod' n d
  have hr : n % d < d := Nat.mod_lt n hd
  unfold roundDiv
  generalize n / d = q at *
  generalize n % d = r at *
  have hle : q ≤ s := by
    by_cases h : s + 1 ≤ q
    · have := Nat.mul_le_mul_right d h
      rw [Nat.add_mul, Nat.one_mul] at this
      omega
    · omega
  have hge : s ≤ q + 1 := by
    by_cases h : q + 2 ≤ s
    · have := Nat.mul_le_mul_right d h
      rw [Nat.add_mul] at this
      omega
    · omega
  obtain rfl | rfl : s = q ∨ s = q + 1 := by omega
  · grind
  · rw [Nat.add_mul, Nat.one_mul] at *
    grind

/-! ## Basins -/

/-- Is `num / den` units in the basin? -/
def Basin.Holds (b : Basin) (num den : Nat) : Prop :=
  b.low * den ≤ 4 * num ∧ 4 * num ≤ b.high * den ∧
    (b.closed = false → b.low * den < 4 * num ∧ 4 * num < b.high * den)

theorem Basin.holds_mul_iff {b : Basin} {num den k : Nat} (hk : 0 < k) :
    b.Holds (num * k) (den * k) ↔ b.Holds num den := by
  unfold Holds
  rw [← Nat.mul_assoc, ← Nat.mul_assoc, ← Nat.mul_assoc, Nat.mul_le_mul_right_iff hk,
    Nat.mul_le_mul_right_iff hk, Nat.mul_lt_mul_right hk, Nat.mul_lt_mul_right hk]

theorem Basin.holds_of_contains {b : Basin} {d : Decimal} (h : b.contains d) :
    b.Holds (d.coefficient * Nat.pow 10 d.place * one) oneInSteps := by
  unfold contains at h
  unfold Holds
  have hcomm : 4 * (d.coefficient * Nat.pow 10 d.place * one) =
      d.coefficient * Nat.pow 10 d.place * (4 * one) := Nat.mul_left_comm ..
  rw [hcomm]
  split at h
  · next hclosed =>
    simp only [Bool.and_eq_true, decide_eq_true_eq] at h
    exact ⟨h.1, h.2, by rw [hclosed]; nofun⟩
  · simp only [Bool.and_eq_true, decide_eq_true_eq] at h
    exact ⟨Nat.le_of_lt h.1, Nat.le_of_lt h.2, fun _ => h⟩

/-- The magnitudes that finite doubles have. -/
structure Magnitude.Normal (m : Magnitude) : Prop where
  lt : m.significand < 2 * hiddenBit
  hidden : 0 < m.exponent → hiddenBit ≤ m.significand

theorem Magnitude.normal_ofPattern (pattern : Nat) : (ofPattern pattern).Normal := by
  have hpos : 0 < hiddenBit := by decide
  have hmod := Nat.mod_lt pattern hpos
  simp only [ofPattern]
  split
  · exact ⟨by dsimp only; omega, by simp⟩
  · exact ⟨by dsimp only; omega, by simp⟩

theorem Magnitude.pattern_eq (pattern : Nat) :
    (ofPattern pattern).exponent * hiddenBit + (ofPattern pattern).significand = pattern := by
  have hdiv := Nat.div_add_mod' pattern hiddenBit
  simp only [ofPattern]
  split
  · next hfield => rw [hfield] at hdiv; simpa using hdiv
  · next hfield =>
    obtain ⟨k, hk⟩ := Nat.exists_eq_succ_of_ne_zero hfield
    rw [hk, Nat.succ_mul] at hdiv
    simp only [hk, Nat.succ_sub_one]
    omega

/-! ## What the basin is for -/

/-- The basin in halves of a step, where `step` is the distance of neighbours times `den`. -/
structure Magnitude.Near (m : Magnitude) (num step : Nat) : Prop where
  low : 2 * (m.significand * step) ≤ 2 * num + step
  high : 2 * num ≤ 2 * (m.significand * step) + step
  odd : m.significand % 2 = 1 →
    2 * (m.significand * step) < 2 * num + step ∧ 2 * num < 2 * (m.significand * step) + step
  /-- Below a power of two it is half as wide. -/
  dense : m.significand = hiddenBit → 0 < m.exponent →
    4 * (m.significand * step) ≤ 4 * num + step

theorem Magnitude.near_of_holds {m : Magnitude} {num den : Nat} (h : m.basin.Holds num den) :
    m.Near num (den * Nat.pow 2 m.exponent) := by
  obtain ⟨hlow, hhigh, hopen⟩ := h
  have hunits : 4 * m.units * den = 4 * (m.significand * (den * Nat.pow 2 m.exponent)) := by
    rw [units, Nat.mul_comm den, Nat.mul_assoc 4, Nat.mul_assoc m.significand]
  have hstep : ∀ k, k * Nat.pow 2 m.exponent * den = k * (den * Nat.pow 2 m.exponent) := fun k => by
    rw [Nat.mul_comm den, Nat.mul_assoc]
  simp only [basin, Nat.sub_mul, Nat.add_mul, hunits, hstep] at hlow hhigh hopen
  have hone := hstep 1
  rw [Nat.one_mul, Nat.one_mul] at hone
  generalize den * Nat.pow 2 m.exponent = step at *
  constructor
  · split at hlow <;> simp only [hone, hstep] at hlow <;> omega
  · omega
  · intro hodd
    have hclosed : decide (m.significand % 2 = 0) = false := by simp [hodd]
    have hopen := hopen hclosed
    split at hopen <;> simp only [hone, hstep] at hopen <;> omega
  · intro hs he
    rw [if_pos ⟨hs, he⟩, hone] at hlow
    omega

theorem log2_sub_eq {q e : Nat} (hlow : 0 < e → Nat.pow 2 (52 + e) ≤ q)
    (hhigh : q < Nat.pow 2 (53 + e)) : q.log2 - 52 = e := by
  by_cases hq : q = 0
  · subst hq
    have he : ¬ 0 < e := fun he => Nat.not_le_of_lt (Nat.two_pow_pos _) (hlow he)
    have hzero : Nat.log2 0 = 0 := rfl
    omega
  · have hlt := (Nat.log2_lt hq).2 hhigh
    by_cases he : 0 < e
    · have hle := (Nat.le_log2 hq).2 (hlow he)
      omega
    · omega

theorem pow_mul_eq (k e den : Nat) :
    Nat.pow 2 (k + e) * den = Nat.pow 2 k * (den * Nat.pow 2 e) := by
  simp only [Nat.pow_eq, Nat.pow_add, Nat.mul_comm den, Nat.mul_assoc]

theorem Magnitude.Near.div_lt {m : Magnitude} {num den : Nat} (hm : m.Normal) (hden : 0 < den)
    (h : m.Near num (den * Nat.pow 2 m.exponent)) : num / den < Nat.pow 2 (53 + m.exponent) := by
  have hpos : 0 < den * Nat.pow 2 m.exponent := Nat.mul_pos hden (Nat.two_pow_pos _)
  have hle := Nat.mul_le_mul_right (den * Nat.pow 2 m.exponent) (Nat.le_sub_one_of_lt hm.lt)
  have hhigh := h.high
  rw [Nat.div_lt_iff_lt_mul hden, pow_mul_eq]
  generalize den * Nat.pow 2 m.exponent = step at *
  simp only [hiddenBit, Nat.pow_eq, Nat.reducePow] at *
  omega

/-- Below a power of two the nearest double is one that `nearest` finds with an exponent less, and
rounds up to the power. -/
theorem nearest_below_power {m : Magnitude} (hm : m.Normal) {num den k : Nat} (hden : 0 < den)
    (hk : m.exponent = k + 1) (h : m.Near (num * one) (den * Nat.pow 2 m.exponent))
    (hless : num * one / den < Nat.pow 2 (52 + m.exponent)) :
    nearest num den = min infinityPattern (m.exponent * hiddenBit + m.significand) := by
  have hstep : den * Nat.pow 2 m.exponent = 2 * (den * Nat.pow 2 k) := by
    rw [hk, Nat.pow_eq, Nat.pow_eq, Nat.pow_succ, ← Nat.mul_assoc, Nat.mul_comm 2]
  have hpos : 0 < den * Nat.pow 2 k := Nat.mul_pos hden (Nat.two_pow_pos _)
  have hhidden := hm.hidden (by omega)
  have hhigh : num * one / den < Nat.pow 2 (53 + k) := by
    rw [hk] at hless
    rwa [show 53 + k = 52 + (k + 1) by omega]
  rw [Nat.div_lt_iff_lt_mul hden, pow_mul_eq, hstep] at hless
  have hlow := h.low
  have hdense := h.dense
  simp only [hstep, Nat.mul_left_comm m.significand 2] at hlow hdense
  -- A larger significand would put the whole basin above the power.
  have hsig : m.significand = hiddenBit := by
    by_cases hlarge : hiddenBit + 1 ≤ m.significand
    · have hfar := Nat.mul_le_mul_right (den * Nat.pow 2 k) hlarge
      generalize den * Nat.pow 2 k = step at *
      simp only [hiddenBit, Nat.pow_eq, Nat.reducePow] at *
      omega
    · omega
  have hdense := hdense hsig (by omega)
  rw [hsig] at hdense
  have hexp : 0 < k → Nat.pow 2 (52 + k) ≤ num * one / den := by
    intro _
    rw [Nat.le_div_iff_mul_le hden, pow_mul_eq]
    generalize den * Nat.pow 2 k = step at *
    simp only [hiddenBit, Nat.pow_eq, Nat.reducePow] at *
    omega
  have hround : roundDiv (num * one) (den * Nat.pow 2 k) = 2 * hiddenBit := by
    apply roundDiv_eq hpos
    · generalize den * Nat.pow 2 k = step at *
      simp only [hiddenBit, Nat.pow_eq, Nat.reducePow] at *
      omega
    · generalize den * Nat.pow 2 k = step at *
      simp only [hiddenBit, Nat.pow_eq, Nat.reducePow] at *
      omega
    · omega
  simp only [nearest, log2_sub_eq hexp hhigh]
  rw [hround, hsig, hk, Nat.add_mul, Nat.one_mul, Nat.two_mul, Nat.add_assoc]

theorem nearest_of_near {m : Magnitude} (hm : m.Normal) {num den : Nat} (hden : 0 < den)
    (h : m.Near (num * one) (den * Nat.pow 2 m.exponent)) :
    nearest num den = min infinityPattern (m.exponent * hiddenBit + m.significand) := by
  have hpos : 0 < den * Nat.pow 2 m.exponent := Nat.mul_pos hden (Nat.two_pow_pos _)
  have hlt := h.div_lt hm hden
  by_cases hsame : 0 < m.exponent → Nat.pow 2 (52 + m.exponent) ≤ num * one / den
  · have hexp := log2_sub_eq hsame hlt
    simp only [nearest, hexp]
    rw [roundDiv_eq hpos h.low h.high h.odd]
  · obtain ⟨hexp, hless⟩ : 0 < m.exponent ∧ num * one / den < Nat.pow 2 (52 + m.exponent) := by
      omega
    exact nearest_below_power hm hden (Nat.sub_add_cancel hexp).symm h hless

theorem nearest_of_holds {pattern num den : Nat} (hpattern : pattern < infinityPattern)
    (hden : 0 < den) (h : (Magnitude.ofPattern pattern).basin.Holds (num * one) den) :
    nearest num den = pattern := by
  rw [nearest_of_near (Magnitude.normal_ofPattern pattern) hden (Magnitude.near_of_holds h),
    Magnitude.pattern_eq, Nat.min_eq_right (Nat.le_of_lt hpattern)]

/-! ## The shortest decimal -/

namespace Magnitude

theorem contains_of_onGrid? {tie : Tie} {m : Magnitude} {place : Nat} {d : Decimal}
    (h : m.onGrid? tie place = some d) : m.basin.contains d := by
  simp only [onGrid?] at h
  split at h
  · next hbelow habove =>
    split at h
    · cases h; exact hbelow
    · split at h
      · cases h; exact habove
      · split at h
        · cases h; exact hbelow
        · cases h; exact habove
  · next hbelow habove => cases h; exact hbelow
  · next hbelow habove => cases h; exact habove
  · cases h

theorem basin_low_lt {m : Magnitude} (h : 0 < m.units) : m.basin.low < 4 * m.units := by
  have hstep : 0 < Nat.pow 2 m.exponent := Nat.two_pow_pos _
  simp only [basin]
  split <;> omega

theorem lt_basin_high (m : Magnitude) : 4 * m.units < m.basin.high := by
  have hstep : 0 < Nat.pow 2 m.exponent := Nat.two_pow_pos _
  simp only [basin]
  omega

theorem basin_zero {m : Magnitude} (h : m.units = 0) :
    m.basin.low = 0 ∧ m.basin.closed = true := by
  have hsig : m.significand = 0 :=
    (Nat.mul_eq_zero.1 h).resolve_right (Nat.ne_of_gt (Nat.two_pow_pos _))
  simp [basin, h, hsig]

theorem holds_units (m : Magnitude) : m.basin.Holds m.units 1 := by
  have hhigh := m.lt_basin_high
  by_cases hunits : 0 < m.units
  · have hlow := basin_low_lt hunits
    exact ⟨by omega, by omega, fun _ => by omega⟩
  · obtain ⟨hlow, hclosed⟩ := basin_zero (Nat.eq_zero_of_not_pos hunits)
    exact ⟨by omega, by omega, by simp [hclosed]⟩

theorem contains_below (m : Magnitude) :
    m.basin.contains ⟨4 * m.units * oneInSteps / (Nat.pow 10 0 * (4 * one)), 0⟩ := by
  have hgrid : Nat.pow 10 0 * (4 * one) ≤ oneInSteps := by decide +kernel
  have hpos : 0 < Nat.pow 10 0 * (4 * one) := by decide +kernel
  have hdiv := Nat.div_add_mod' (4 * m.units * oneInSteps) (Nat.pow 10 0 * (4 * one))
  have hmod := Nat.mod_lt (4 * m.units * oneInSteps) hpos
  have hhigh := Nat.mul_le_mul_right oneInSteps m.lt_basin_high
  rw [Nat.succ_mul] at hhigh
  simp only [Basin.contains, Nat.mul_assoc _ (Nat.pow 10 0)]
  generalize Nat.pow 10 0 * (4 * one) = grid at *
  by_cases hunits : 0 < m.units
  · have hlow := Nat.mul_le_mul_right oneInSteps (basin_low_lt hunits)
    rw [Nat.succ_mul] at hlow
    split <;> simp only [Bool.and_eq_true, decide_eq_true_eq] <;> omega
  · have hzero : m.units = 0 := by omega
    obtain ⟨hlow, hclosed⟩ := basin_zero hzero
    simp [hlow, hclosed, hzero]

theorem onGrid?_isSome {tie : Tie} {m : Magnitude} {place : Nat}
    (h : m.basin.contains
      ⟨4 * m.units * oneInSteps / (Nat.pow 10 place * (4 * one)), place⟩) :
    (m.onGrid? tie place).isSome := by
  simp only [onGrid?, h]
  split
  · split
    · rfl
    · split
      · rfl
      · split <;> rfl
  · rfl
  · rfl
  · simp_all

theorem contains_shortestFrom (tie : Tie) (m : Magnitude) (place : Nat) :
    m.basin.contains (m.shortestFrom tie place) := by
  induction place with
  | zero =>
    obtain ⟨d, hd⟩ := Option.isSome_iff_exists.1 (onGrid?_isSome m.contains_below)
    rw [shortestFrom, hd]
    exact contains_of_onGrid? hd
  | succ place ih =>
    rw [shortestFrom]
    cases h : m.onGrid? tie (place + 1) with
    | some d => exact contains_of_onGrid? h
    | none => exact ih

end Magnitude

end Treewalk.Number
