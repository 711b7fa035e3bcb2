import Treewalk.Number.Display
import Treewalk.Number.Read
import Treewalk.Proofs.Number.Nearest

/-!
# Numbers read back

A finite double that is not negative is shown as a numeral, and the numeral means that double. It has
a point just if the double is not whole.
-/

namespace Treewalk.Number

/-! ## Digits -/

theorem digitsValue_eq (ds : List Char) : digitsValue ds = Nat.ofDigitChars 10 ds 0 := rfl

theorem digitsValue_digits (n : Nat) : digitsValue (digits n) = n := Nat.ofDigitChars_ten_toDigits

theorem digitsValue_zeros_append (k : Nat) (ds : List Char) :
    digitsValue (zeros k ++ ds) = digitsValue ds := by
  rw [digitsValue_eq, zeros, Nat.ofDigitChars_append, Nat.ofDigitChars_replicate_zero, Nat.mul_zero]
  rfl

theorem digitsValue_append_zeros (ds : List Char) (k : Nat) :
    digitsValue (ds ++ zeros k) = Nat.pow 10 k * digitsValue ds := by
  rw [digitsValue_eq, zeros, Nat.ofDigitChars_append, Nat.ofDigitChars_replicate_zero]
  rfl

theorem isDigit_of_mem_digits {n : Nat} {c : Char} (h : c ∈ digits n) : c.isDigit :=
  Nat.isDigit_of_mem_toDigits (by decide) (by decide) h

theorem isDigit_of_mem_zeros {k : Nat} {c : Char} (h : c ∈ zeros k) : c.isDigit := by
  rw [(List.mem_replicate.1 h).2]
  rfl

/-! ## Numerals -/

/-- Digits, or digits, a point and digits. -/
def numeral (whole : List Char) : List Char → List Char
  | [] => whole
  | fraction => whole ++ '.' :: fraction

theorem numeral_cons (whole : List Char) (c : Char) (cs : List Char) :
    numeral whole (c :: cs) = whole ++ '.' :: c :: cs := rfl

theorem splitPoint_numeral {whole fraction : List Char} (hwhole : ∀ c ∈ whole, c.isDigit) :
    splitPoint (numeral whole fraction) = (whole, fraction) := by
  unfold numeral splitPoint
  split
  · have htake : (whole ++ []).takeWhile Char.isDigit = whole ++ [] :=
      List.takeWhile_append_of_pos hwhole
    have hdrop : (whole ++ []).dropWhile Char.isDigit = [] := List.dropWhile_append_of_pos hwhole
    rw [List.append_nil] at htake hdrop
    rw [htake, hdrop]
    rfl
  · rw [List.takeWhile_append_of_pos hwhole, List.dropWhile_append_of_pos hwhole]
    simp

/-- `num / den` as a numeral: `whole` and `fraction` are digits that have this value. -/
structure Writes (whole fraction : List Char) (num den : Nat) : Prop where
  ne_nil : whole ≠ []
  isDigit_whole : ∀ c ∈ whole, c.isDigit
  isDigit_fraction : ∀ c ∈ fraction, c.isDigit
  value : digitsValue (whole ++ fraction) * den = num * Nat.pow 10 fraction.length

/-- The number that a numeral denotes. -/
def numeralValue (whole fraction : List Char) : ℚ :=
  digitsValue (whole ++ fraction) / (Nat.pow 10 fraction.length : Nat)

theorem Writes.numeralValue_eq {whole fraction : List Char} {num den : Nat}
    (h : Writes whole fraction num den) (hden : 0 < den) :
    numeralValue whole fraction = num / den := by
  have hpow : (0 : ℚ) < (Nat.pow 10 fraction.length : Nat) := Nat.cast_pos.2 (Nat.pow_pos (by decide))
  rw [numeralValue, div_eq_div_iff hpow.ne' (Nat.cast_pos.2 hden).ne', ← Nat.cast_mul, h.value,
    Nat.cast_mul]

theorem writes_split {padded : List Char} {scale num den : Nat} (hlength : scale < padded.length)
    (hdigit : ∀ c ∈ padded, c.isDigit)
    (hvalue : digitsValue padded * den = num * Nat.pow 10 scale) :
    Writes (padded.take (padded.length - scale)) (padded.drop (padded.length - scale)) num den where
  ne_nil h := by
    have := List.take_eq_nil_iff.1 h
    rcases this with h | h
    · omega
    · simp [h] at hlength
  isDigit_whole c hc := hdigit c (List.mem_of_mem_take hc)
  isDigit_fraction c hc := hdigit c (List.mem_of_mem_drop hc)
  value := by
    rw [List.take_append_drop, List.length_drop, hvalue]
    congr 2
    omega

theorem Decimal.positional_eq (d : Decimal) : d.positional = numeral d.parts.1 d.parts.2 := by
  unfold positional numeral
  split <;> simp_all

theorem pow_mul_pow (j k : Nat) : Nat.pow 10 j * Nat.pow 10 k = Nat.pow 10 (j + k) :=
  (Nat.pow_add 10 j k).symm

theorem pow_sub_mul_oneInSteps {place : Nat} (h : onesPlace ≤ place) :
    Nat.pow 10 (place - onesPlace) * oneInSteps = Nat.pow 10 place := by
  unfold oneInSteps
  generalize onesPlace = ones at *
  rw [pow_mul_pow, Nat.sub_add_cancel h]

theorem Decimal.writes_parts (d : Decimal) :
    Writes d.parts.1 d.parts.2 (d.coefficient * Nat.pow 10 d.place) oneInSteps := by
  unfold parts
  split
  · next hplace =>
    have hpow := pow_sub_mul_oneInSteps hplace
    constructor
    · simp [digits]
    · intro c hc
      exact (List.mem_append.1 hc).elim isDigit_of_mem_digits isDigit_of_mem_zeros
    · nofun
    · rw [List.append_nil, digitsValue_append_zeros, digitsValue_digits, Nat.mul_right_comm, hpow,
        Nat.mul_comm]
      simp
  · next hplace =>
    have hpow : Nat.pow 10 d.place * Nat.pow 10 (onesPlace - d.place) = oneInSteps := by
      unfold oneInSteps
      generalize onesPlace = ones at *
      rw [pow_mul_pow, Nat.add_sub_cancel' (by omega)]
    apply writes_split
    · simp [zeros]
      omega
    · intro c hc
      exact (List.mem_append.1 hc).elim isDigit_of_mem_zeros isDigit_of_mem_digits
    · rw [digitsValue_zeros_append, digitsValue_digits, Nat.mul_assoc, hpow]

/-! ## Doubles -/

theorem Writes.read_numeral {whole fraction : List Char} {num den pattern : Nat}
    (h : Writes whole fraction num den) (hden : 0 < den) (hpattern : pattern < infinityPattern)
    (hbasin : (Magnitude.ofPattern pattern).basin.Holds (num * one) den) :
    read (numeral whole fraction) = .ofBits pattern.toUInt64 := by
  have hpow : 0 < Nat.pow 10 fraction.length := Nat.pow_pos (by decide)
  have hscaled : (Magnitude.ofPattern pattern).basin.Holds
      (digitsValue (whole ++ fraction) * one) (Nat.pow 10 fraction.length) := by
    rw [← Basin.holds_mul_iff hpow] at hbasin
    rw [← Basin.holds_mul_iff hden, Nat.mul_right_comm, h.value, Nat.mul_right_comm,
      Nat.mul_comm _ den]
    exact hbasin
  rw [read, splitPoint_numeral h.isDigit_whole]
  dsimp only
  rw [nearest_of_holds hpattern hpow hscaled]

theorem oneInSteps_positive : 0 < oneInSteps := by decide +kernel

theorem Magnitude.place_shortest_lt {m : Magnitude} (h : ¬ m.isWhole) (tie : Tie) :
    (m.shortest tie).place < onesPlace := by
  by_contra hplace
  have hcontains := Basin.holds_of_contains (contains_shortestFrom tie m m.topPlace)
  have hscaled : m.basin.Holds ((m.shortest tie).coefficient *
      Nat.pow 10 ((m.shortest tie).place - onesPlace) * one * oneInSteps) (1 * oneInSteps) := by
    rw [Nat.one_mul, Nat.mul_right_comm, Nat.mul_assoc _ _ oneInSteps,
      pow_sub_mul_oneInSteps (Nat.not_lt.1 hplace)]
    exact hcontains
  exact h (isWhole_of_holds ((Basin.holds_mul_iff oneInSteps_positive).1 hscaled))

theorem Decimal.fraction_ne_nil {d : Decimal} (h : d.place < onesPlace) : d.parts.2 ≠ [] := by
  unfold parts
  rw [if_neg (Nat.not_le.2 h)]
  intro hnil
  have := congrArg List.length hnil
  simp [zeros] at this
  omega

theorem exists_writes_display (m : Magnitude) : ∃ whole fraction num den,
    Writes whole fraction num den ∧ 0 < den ∧ m.basin.Holds (num * one) den ∧
      displayMagnitude m = numeral whole fraction ∧ (fraction = [] ↔ m.isWhole) ∧
      (m.isWhole → whole = digits m.whole) := by
  unfold displayMagnitude
  split
  · next hwhole =>
    have hwrites : Writes (digits m.whole) [] m.whole 1 :=
      ⟨by simp [digits], fun _ => isDigit_of_mem_digits, nofun, by simp [digitsValue_digits]⟩
    refine ⟨_, [], _, _, hwrites, Nat.one_pos, ?_, rfl, iff_of_true rfl hwhole, fun _ => rfl⟩
    rw [Magnitude.isWhole_iff.1 hwhole]
    exact m.holds_units
  · next hwhole =>
    refine ⟨_, _, _, _, (m.shortest .up).writes_parts, oneInSteps_positive,
      Basin.holds_of_contains (Magnitude.contains_shortestFrom .up m m.topPlace),
      Decimal.positional_eq _, iff_of_false ?_ hwhole, fun h => absurd h hwhole⟩
    exact Decimal.fraction_ne_nil (Magnitude.place_shortest_lt hwhole .up)

theorem read_displayMagnitude {pattern : Nat} (h : pattern < infinityPattern) :
    ∃ whole fraction num den, Writes whole fraction num den ∧
      displayMagnitude (.ofPattern pattern) = numeral whole fraction ∧
      read (numeral whole fraction) = .ofBits pattern.toUInt64 := by
  obtain ⟨whole, fraction, num, den, hwrites, hden, hholds, hdisplay, -⟩ :=
    exists_writes_display (.ofPattern pattern)
  exact ⟨whole, fraction, num, den, hwrites, hdisplay, hwrites.read_numeral hden h hholds⟩

end Treewalk.Number
