import Treewalk.Proofs.Syntax.ReadBack

/-!
# Shown numbers lose nothing

The text of a finite double is a decimal that rounds to this double and to no other, sign included.
It has a point just if the double is not whole. Without a sign it is one token of the language, and
the value of the token is the double.
-/

namespace Treewalk.Number

/-! ## Doubles by sign and pattern -/

theorem toBits_injective {x y : Float} (h : x.toBits.toNat = y.toBits.toNat) : x = y := by
  have hbits : x.toModel.toBits = y.toModel.toBits := UInt64.toNat_inj.1 h
  obtain ⟨⟨a, ha⟩⟩ := x
  obtain ⟨⟨b, hb⟩⟩ := y
  cases hbits
  rfl

theorem form_of_isFinite {x : Float} (h : x.isFinite) :
    x.toBits.toNat % signBit < infinityPattern ∧ form x =
      .finite (decide (signBit ≤ x.toBits.toNat)) (.ofPattern (x.toBits.toNat % signBit)) := by
  rw [isFinite_eq, value?] at h
  unfold form at h ⊢
  dsimp only at h ⊢
  split at h
  · next hpattern => exact ⟨hpattern, if_pos hpattern⟩
  · split at h <;> cases h

/-! ## Whole numbers -/

theorem ofUnits_eq_intCast_iff {units n : ℤ} : ofUnits units = n ↔ units = n * one := by
  have hone : (one : ℚ) ≠ 0 := Nat.cast_ne_zero.2 (Nat.ne_of_gt one_positive)
  rw [ofUnits, div_eq_iff hone, ← Int.cast_natCast, ← Int.cast_mul, Int.cast_inj]

section

variable {negative : Bool} {m : Magnitude} {n : ℤ}

theorem units_of_value_eq (h : ofUnits (signedUnits negative m.units) = n) :
    m.units = n.natAbs * one := by
  have hunits := congrArg Int.natAbs (ofUnits_eq_intCast_iff.1 h)
  rw [Int.natAbs_mul, Int.natAbs_natCast] at hunits
  rw [← hunits]
  cases negative <;> simp [signedUnits]

theorem whole_of_value_eq (h : ofUnits (signedUnits negative m.units) = n) :
    m.whole = n.natAbs := by
  rw [Magnitude.whole, units_of_value_eq h, Nat.mul_div_cancel _ one_positive]

theorem isWhole_iff_value : m.isWhole ↔ ∃ n : ℤ, ofUnits (signedUnits negative m.units) = n := by
  constructor
  · intro h
    refine ⟨signedUnits negative m.whole, ofUnits_eq_intCast_iff.2 ?_⟩
    rw [← Magnitude.isWhole_iff.1 h]
    cases negative <;>
      simp only [signedUnits, Bool.false_eq_true, if_true, if_false, Nat.cast_mul, neg_mul]
  · rintro ⟨n, h⟩
    rw [Magnitude.isWhole_iff, whole_of_value_eq h, units_of_value_eq h]

end

/-! ## Numerals -/

theorem point_mem_iff {whole fraction : List Char} (h : ∀ c ∈ whole, c.isDigit) (negative : Bool) :
    '.' ∈ (signed negative (numeral whole fraction)).toList ↔ fraction ≠ [] := by
  have hwhole : '.' ∉ whole := fun hmem => absurd (h _ hmem) (by decide)
  have hnumeral : '.' ∈ numeral whole fraction ↔ fraction ≠ [] := by
    cases fraction <;> simp [numeral, hwhole]
  rw [signed, String.toList_ofList, ← hnumeral]
  cases negative <;> simp

theorem scan_numeral {whole fraction : List Char} {num den : Nat}
    (h : Writes whole fraction num den) :
    (scan (.ofList (numeral whole fraction))).errors = [] ∧
      ∃ t stop, (scan (.ofList (numeral whole fraction))).tokens = [t, stop] ∧ t.kind = .number ∧
        t.lexeme = .ofList (numeral whole fraction) ∧
        t.literal = some (.number (read (numeral whole fraction))) ∧ stop.isEnd := by
  have hlexes := Lexeme.lexes_fits (Expr.fits_numeral h) rfl
  obtain ⟨herrors, t, hwords, ht⟩ := hlexes.words
  rw [scan, String.toList_ofList, tokens_ofText, hwords]
  exact ⟨herrors, t, _, rfl, (Option.some.inj ht.kind).symm, ht.lexeme, ht.literal, rfl⟩

/-! ## What is shown -/

/-- A finite double is the nearest to the decimal that it is shown as, and scanning the text gives
it back. -/
theorem display_loses_nothing {x : Float} (hx : x.isFinite) :
    ∃ v negative whole fraction, value? x = some v ∧
      display x = signed negative (numeral whole fraction) ∧
      whole ≠ [] ∧ (∀ c ∈ whole ++ fraction, c.isDigit) ∧
      (negative = true ↔ signBit ≤ x.toBits.toNat) ∧
      ('.' ∉ (display x).toList ↔ ∃ n : ℤ, v = n) ∧
      (∀ n : ℤ, v = n → fraction = [] ∧ whole = digits n.natAbs) ∧
      (∀ pattern, IsNearest (numeralValue whole fraction) pattern ↔
        x.toBits.toNat = (if negative then signBit else 0) + pattern) ∧
      (x.toBits.toNat < signBit → (scan (display x)).errors = [] ∧
        ∃ t stop, (scan (display x)).tokens = [t, stop] ∧ t.kind = .number ∧
          t.lexeme = display x ∧ t.literal = some (.number x) ∧ stop.isEnd) := by
  obtain ⟨hpattern, hform⟩ := form_of_isFinite hx
  obtain ⟨whole, fraction, num, den, hwrites, hden, hholds, hshown, hfraction, hdigits⟩ :=
    exists_writes_display (.ofPattern (x.toBits.toNat % signBit))
  have hdisplay : display x =
      signed (decide (signBit ≤ x.toBits.toNat)) (numeral whole fraction) := by
    rw [display, hform]
    exact congrArg (signed _) hshown
  have hvalue : value? x = _ := congrArg Form.value? hform
  refine ⟨_, _, whole, fraction, hvalue, hdisplay, hwrites.ne_nil, ?_, decide_eq_true_iff, ?_,
    fun n hn => ?_, fun pattern => ?_, fun hpositive => ?_⟩
  · intro c hc
    exact (List.mem_append.1 hc).elim (hwrites.isDigit_whole c) (hwrites.isDigit_fraction c)
  · rw [hdisplay, point_mem_iff hwrites.isDigit_whole, not_not, hfraction, isWhole_iff_value]
  · have hwhole := isWhole_iff_value.2 ⟨n, hn⟩
    exact ⟨hfraction.2 hwhole, by rw [hdigits hwhole, whole_of_value_eq hn]⟩
  · have hbits : x.toBits.toNat < 2 * signBit := x.toBits.toNat_lt
    rw [hwrites.numeralValue_eq hden, isNearest_iff hden, nearest_of_holds hpattern hden hholds]
    by_cases hsign : signBit ≤ x.toBits.toNat
    · rw [Nat.mod_eq_sub_mod hsign, Nat.mod_eq_of_lt (by omega), if_pos (decide_eq_true hsign)]
      omega
    · rw [Nat.mod_eq_of_lt (Nat.lt_of_not_le hsign), if_neg (by simpa using hsign), Nat.zero_add]
  · have hread := hwrites.read_numeral hden hpattern hholds
    have hsame : Float.ofBits (x.toBits.toNat % signBit).toUInt64 = x := by
      apply toBits_injective
      rw [toBits_ofBits (Nat.le_of_lt hpattern), Nat.mod_eq_of_lt hpositive]
    have hscan := scan_numeral hwrites
    rw [hread, hsame] at hscan
    rw [hdisplay, decide_eq_false (Nat.not_le.2 hpositive)]
    exact hscan

theorem display_loses_nothing_tenth :
    let x := Float.ofBits 0x3FB999999999999A
    x.isFinite ∧ display x = "0.1" ∧ (∀ n : ℤ, value? x ≠ some n) ∧ (scan "0.1").errors = [] ∧
      ∃ t stop, (scan "0.1").tokens = [t, stop] ∧ t.literal = some (.number x) := by
  intro x
  have hx : x.isFinite := by decide +kernel
  have hdisplay : display x = "0.1" := by decide +kernel
  obtain ⟨v, -, -, -, hv, -, -, -, -, hpoint, -, -, hscan⟩ := display_loses_nothing hx
  rw [hdisplay] at hpoint hscan
  obtain ⟨herrors, t, stop, htokens, -, -, hliteral, -⟩ := hscan (by decide +kernel)
  refine ⟨hx, hdisplay, fun n hn => ?_, herrors, t, stop, htokens, hliteral⟩
  exact absurd (hpoint.2 ⟨n, Option.some.inj (hv.symm.trans hn)⟩) (by decide)

end Treewalk.Number
