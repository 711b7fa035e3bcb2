import Treewalk.Proofs.Json.Reader

/-!
# Numbers in JSON

A whole number is read as itself. A finite double that is not negative is read as a decimal, and the
double is the nearest to this decimal.
-/

namespace Treewalk.Text.Json

open Number (Decimal Magnitude Writes digits digitsValue numeral numeralValue oneInSteps onesPlace
  zeros)

/-! ## Leading digits -/

theorem digits_ne_nil (n : Nat) : digits n ≠ [] := by simp [digits]

theorem head?_digits_ne_zero {n : Nat} (h : n ≠ 0) : (digits n).head? ≠ some '0' := by
  induction n using Nat.strong_induction_on with
  | _ n ih =>
    by_cases hten : n < 10
    · have hlast : ∀ k < 10, k ≠ 0 → Nat.digitChar k ≠ '0' := by decide
      rw [digits, Nat.toDigits_of_lt_base hten, List.head?_cons, ne_eq, Option.some_inj]
      exact hlast n hten h
    · have hmore : digits n = digits (n / 10) ++ [Nat.digitChar (n % 10)] :=
        Nat.toDigits_of_base_le (by decide) (Nat.not_lt.1 hten)
      rw [hmore, List.head?_append_of_ne_nil _ (digits_ne_nil _)]
      exact ih (n / 10) (by omega) (by omega)

theorem canonical_digits (n : Nat) : Canonical (digits n) := by
  by_cases h : n = 0
  · exact .inl (by rw [h]; rfl)
  · exact .inr (head?_digits_ne_zero h)

theorem canonical_parts {d : Decimal} (h : d.coefficient ≠ 0) : Canonical d.parts.1 := by
  have hhead := head?_digits_ne_zero h
  have hne := digits_ne_nil d.coefficient
  unfold Decimal.parts
  split
  · right
    rwa [List.head?_append_of_ne_nil _ hne]
  · dsimp only
    generalize digits d.coefficient = ds at *
    generalize onesPlace - d.place = scale
    by_cases hlong : scale < ds.length
    · have hzeros : scale + 1 - ds.length = 0 := by omega
      right
      rw [hzeros, zeros, List.replicate_zero, List.nil_append, List.head?_take, if_neg (by omega)]
      exact hhead
    · have hlength : (zeros (scale + 1 - ds.length) ++ ds).length - scale = 1 := by
        rw [List.length_append, zeros, List.length_replicate]
        omega
      left
      rw [hlength, zeros, show scale + 1 - ds.length = scale - ds.length + 1 by omega]
      rfl

/-! ## Decimals -/

/-- The number that a decimal is. -/
def decimalValue (d : Decimal) : ℚ :=
  (d.coefficient * Nat.pow 10 d.place : Nat) / (oneInSteps : Nat)

theorem plain_numeral {whole fraction : List Char} (hwhole : ∀ c ∈ whole, c.isDigit)
    (hfraction : ∀ c ∈ fraction, c.isDigit) : Plain (numeral whole fraction) := by
  cases fraction with
  | nil => exact plain_of_isDigit hwhole
  | cons d ds =>
    rw [Number.numeral_cons, plain_append, plain_cons]
    exact ⟨plain_of_isDigit hwhole, by decide, plain_of_isDigit hfraction⟩

theorem opens_numeral {whole : List Char} (hne : whole ≠ []) (hwhole : ∀ c ∈ whole, c.isDigit)
    (fraction tail : List Char) :
    ∃ c cs, numeral whole fraction ++ tail = c :: cs ∧ c.isDigit := by
  obtain ⟨c, cs, rfl⟩ := List.exists_cons_of_ne_nil hne
  refine ⟨c, ?_⟩
  cases fraction <;> exact ⟨_, rfl, hwhole c List.mem_cons_self⟩

theorem reads_numeral {whole fraction : List Char} {num den : Nat} (depth : Nat)
    (h : Writes whole fraction num den) (hden : 0 < den) (hcanonical : Canonical whole) :
    Reads (value? (depth + 1)) (numeral whole fraction) (.number (num / den)) := by
  apply reads_number (plain_numeral h.isDigit_whole h.isDigit_fraction)
  · simpa using opens_numeral h.ne_nil h.isDigit_whole fraction []
  · intro rest hrest
    rw [unsigned?_numeral h.ne_nil hcanonical h.isDigit_whole h.isDigit_fraction
      (stops_of_ends hrest) (exponent?_of_ends hrest), h.numeralValue_eq hden, zpow_zero, mul_one]

theorem reads_nat (depth n : Nat) :
    Reads (value? (depth + 1)) (toString n).toList (.number n) := by
  have hwrites : Writes (digits n) [] n 1 :=
    ⟨digits_ne_nil n, fun _ => Number.isDigit_of_mem_digits, nofun,
      by simp [Number.digitsValue_digits]⟩
  have hread := reads_numeral depth hwrites Nat.one_pos (canonical_digits n)
  rw [Nat.cast_one, div_one] at hread
  rw [Nat.toString_eq_ofList_toDigits, String.toList_ofList]
  exact hread

theorem exists_pointed (d : Decimal) : ∃ fraction, d.pointed = numeral d.parts.1 fraction ∧
    Writes d.parts.1 fraction (d.coefficient * Nat.pow 10 d.place) oneInSteps := by
  have hwrites := d.writes_parts
  unfold Decimal.pointed
  generalize d.parts = parts at *
  obtain ⟨whole, _ | ⟨c, cs⟩⟩ := parts
  · refine ⟨['0'], rfl, hwrites.ne_nil, hwrites.isDigit_whole, by simp, ?_⟩
    have hvalue := hwrites.value
    rw [List.append_nil] at hvalue
    have hzero := Number.digitsValue_append_zeros whole 1
    change digitsValue (whole ++ ['0']) = _ at hzero
    rw [hzero, Nat.mul_assoc, hvalue]
    simp [Nat.mul_comm]
  · exact ⟨_, rfl, hwrites⟩

theorem power?_digits {rest : List Char} (e : ℤ) (hrest : Ends rest) :
    power? ((if e < 0 then ['-'] else ['+']) ++ digits e.natAbs ++ rest) = some (e, rest) := by
  have hread := digits?_append (digits_ne_nil e.natAbs) (fun _ => Number.isDigit_of_mem_digits)
    (fun c hc => (stops_of_ends hrest c hc).1)
  split
  · next h =>
    rw [List.append_assoc, List.singleton_append, power?, hread, Option.map_some]
    dsimp only
    rw [Number.digitsValue_digits, Int.ofNat_natAbs_of_nonpos (Int.le_of_lt h), neg_neg]
  · next h =>
    rw [List.append_assoc, List.singleton_append, power?, hread, Option.map_some]
    dsimp only
    rw [Number.digitsValue_digits, Int.natAbs_of_nonneg (Int.not_lt.1 h)]

theorem numeralValue_scientific {d : Decimal} {first : Char} {more : List Char}
    (h : digits d.coefficient = first :: more) :
    numeralValue [first] more * 10 ^ d.leadingExponent = decimalValue d := by
  have hcoefficient : digitsValue ([first] ++ more) = d.coefficient := by
    rw [List.singleton_append, ← h, Number.digitsValue_digits]
  have hexponent : d.leadingExponent = (d.place : ℤ) + more.length - onesPlace := by
    rw [Decimal.leadingExponent, h, List.length_cons]
    generalize onesPlace = ones
    omega
  have hten : (10 : ℚ) ≠ 0 := by norm_num
  rw [numeralValue, hcoefficient, hexponent]
  unfold decimalValue oneInSteps
  -- A variable, so that its power of ten is not computed.
  generalize onesPlace = ones
  rw [zpow_sub₀ hten, zpow_add₀ hten, zpow_natCast, zpow_natCast, zpow_natCast, Nat.pow_eq,
    Nat.pow_eq, Nat.pow_eq]
  push_cast
  field_simp

theorem reads_scientific {d : Decimal} (depth : Nat) (h : d.coefficient ≠ 0) :
    Reads (value? (depth + 1)) (d.scientific ['+']) (.number (decimalValue d)) := by
  obtain ⟨first, more, hdigits⟩ := List.exists_cons_of_ne_nil (digits_ne_nil d.coefficient)
  have hhead := head?_digits_ne_zero h
  have hall : ∀ c ∈ first :: more, c.isDigit := by
    rw [← hdigits]
    exact fun _ => Number.isDigit_of_mem_digits
  rw [hdigits] at hhead
  have hcanonical : Canonical [first] := .inr hhead
  have hfirst : ∀ c ∈ [first], c.isDigit :=
    List.forall_mem_singleton.2 (hall first List.mem_cons_self)
  have hmore : ∀ c ∈ more, c.isDigit := fun c hc => hall c (List.mem_cons_of_mem _ hc)
  have htext : d.scientific ['+'] = numeral [first] more ++ 'e' ::
      ((if d.leadingExponent < 0 then ['-'] else ['+']) ++ digits d.leadingExponent.natAbs) := by
    unfold Decimal.scientific
    rw [hdigits]
    cases more with
    | nil => rfl
    | cons c cs => simp [numeral]
  rw [htext]
  apply reads_number
  · rw [plain_append, plain_cons, plain_append]
    refine ⟨plain_numeral hfirst hmore, by decide, ?_,
      plain_of_isDigit fun _ => Number.isDigit_of_mem_digits⟩
    split <;> simp [Plain]
  · exact opens_numeral (List.cons_ne_nil _ _) hfirst _ _
  · intro rest hrest
    have hpower := power?_digits d.leadingExponent hrest
    have hstops : Stops ('e' :: ((if d.leadingExponent < 0 then ['-'] else ['+']) ++
        digits d.leadingExponent.natAbs) ++ rest) := by
      rintro c ⟨⟩
      decide
    rw [List.append_assoc, unsigned?_numeral (List.cons_ne_nil _ _) hcanonical hfirst hmore hstops
      hpower, numeralValue_scientific hdigits]

/-! ## Doubles -/

theorem coefficient_ne_zero {m : Magnitude} {d : Decimal} (hm : m.significand ≠ 0)
    (hd : m.basin.contains d) : d.coefficient ≠ 0 := by
  intro h
  obtain ⟨hlow, -, -⟩ := Number.Basin.holds_of_contains hd
  rw [h, Nat.zero_mul, Nat.zero_mul, Nat.mul_zero] at hlow
  have hstep : 0 < Nat.pow 2 m.exponent := Nat.two_pow_pos _
  have hunits : 1 * Nat.pow 2 m.exponent ≤ m.units :=
    Nat.mul_le_mul_right _ (Nat.pos_of_ne_zero hm)
  have hpos : 0 < m.basin.low := by
    simp only [Magnitude.basin]
    split <;> omega
  exact absurd (Nat.mul_pos hpos Number.oneInSteps_positive) (Nat.not_lt.2 hlow)

theorem exists_reads_write (m : Magnitude) : ∃ num den, 0 < den ∧
    m.basin.Holds (num * Number.one) den ∧
    ∀ depth, Reads (value? (depth + 1)) (layout.write m) (.number (num / den)) := by
  unfold Number.Layout.write
  split
  · next hzero =>
    have hwrites : Writes ['0'] ['0'] 0 1 := ⟨by simp, by simp, by simp, rfl⟩
    refine ⟨0, 1, Nat.one_pos, ?_, fun depth => reads_numeral depth hwrites Nat.one_pos (.inl rfl)⟩
    rw [Nat.zero_mul, ← Magnitude.units_eq_zero_iff.2 hzero]
    exact m.holds_units
  · next hpos =>
    have hcontains := Magnitude.contains_shortestFrom layout.tie m m.topPlace
    have hcoefficient : (m.shortest layout.tie).coefficient ≠ 0 :=
      coefficient_ne_zero hpos hcontains
    refine ⟨_, _, Number.oneInSteps_positive, Number.Basin.holds_of_contains hcontains,
      fun depth => ?_⟩
    dsimp only
    split
    · obtain ⟨fraction, htext, hwrites⟩ := exists_pointed (m.shortest layout.tie)
      rw [htext]
      exact reads_numeral depth hwrites Number.oneInSteps_positive (canonical_parts hcoefficient)
    · exact reads_scientific depth hcoefficient

theorem exists_reads_double {pattern : Nat} (h : pattern < Number.infinityPattern) : ∃ q,
    (∀ depth, Reads (value? (depth + 1)) (number (.ofBits pattern.toUInt64)).toList (.number q)) ∧
      ∀ other, Number.IsNearest q other ↔ pattern = other := by
  obtain ⟨num, den, hden, hholds, hreads⟩ := exists_reads_write (.ofPattern pattern)
  have htext : (number (.ofBits pattern.toUInt64)).toList = layout.write (.ofPattern pattern) := by
    simp [number, Number.form_ofBits h, Number.signed]
  rw [htext]
  refine ⟨_, hreads, fun other => ?_⟩
  rw [Number.isNearest_iff hden, Number.nearest_of_holds h hden hholds]

end Treewalk.Text.Json
