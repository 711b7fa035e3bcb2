import Treewalk.Eval.Operator
import Treewalk.Proofs.Number.Values

/-!
# Repeating strings

Whether a repeated string would be too large is decided by a comparison of doubles first, and then
by a product of words. Together they decide the one question whether size times count is above the
limit, because what passes the comparison fits in a word.
-/

namespace Treewalk

open Number (value? value?_zero value?_truncate truncate)
open RuntimeError (Cause)

/-! ## Words -/

theorem toNat_of_wordProduct? {size : Nat} {times product : UInt64}
    (h : wordProduct? size times = some product) : product.toNat = size * times.toNat := by
  unfold wordProduct? at h
  split at h
  · next hfits =>
    cases h
    rw [UInt64.toNat_mul, Nat.toUInt64_eq, UInt64.toNat_ofNat', Nat.mod_mul_mod]
    exact Nat.mod_eq_of_lt hfits
  · cases h

theorem wordProduct?_of_le {size : Nat} {times : UInt64} (h : size * times.toNat ≤ repeatLimit) :
    ∃ product, wordProduct? size times = some product := by
  have hlimit : repeatLimit < UInt64.size := by decide
  exact ⟨_, if_pos (Nat.lt_of_le_of_lt h hlimit)⟩

/-! ## Strings -/

theorem utf8ByteSize_join_replicate (k : Nat) (s : String) :
    (String.join (List.replicate k s)).utf8ByteSize = s.utf8ByteSize * k := by
  induction k with
  | zero => rfl
  | succ k ih =>
    rw [List.replicate_succ, String.join_cons, String.utf8ByteSize_append, ih, Nat.mul_succ,
      Nat.add_comm]

theorem join_replicate_empty (k : Nat) : String.join (List.replicate k "") = "" := by
  induction k with
  | zero => rfl
  | succ k ih => rw [List.replicate_succ, String.join_cons, ih]; rfl

/-! ## Counts -/

theorem value?_repeatLimit : value? (Float.ofNat repeatLimit) = some (repeatLimit : ℚ) := by
  have hform : Number.form (Float.ofNat repeatLimit) = .finite false ⟨Number.hiddenBit, 1052⟩ := by
    decide +kernel
  have hunits : (Number.Magnitude.mk Number.hiddenBit 1052).units = repeatLimit * Number.one := by
    decide +kernel
  refine Number.value?_eq_some_iff.2 ⟨_, _, hform, ?_⟩
  rw [hunits]
  exact Number.ofUnits_mul_one repeatLimit

theorem invalid_iff (count : Float) : (!count.isFinite || decide (count < 0)) = true ↔
    count.isNaN ∨ count.isInf ∨ count < 0 := by
  rw [Bool.or_eq_true, decide_eq_true_eq, Number.isFinite_eq, Bool.not_eq_true',
    Option.isSome_eq_false_iff, Option.isNone_iff_eq_none, Number.value?_eq_none_iff, or_assoc]

theorem valid_iff (count : Float) : ¬ (count.isNaN ∨ count.isInf ∨ count < 0) ↔
    ∃ v, value? count = some v ∧ 0 ≤ v := by
  rw [← or_assoc, ← Number.value?_eq_none_iff, not_or]
  cases hv : value? count with
  | none => simp
  | some v => simp [Number.lt_iff hv value?_zero]

theorem toNat_times {count : Float} {v : ℚ} (hv : value? count = some v) (hpos : 0 ≤ v)
    (h : ¬ Float.ofNat repeatLimit < truncate count) : (truncate count).toUInt64.toNat = ⌊v⌋₊ := by
  have hwhole := value?_truncate hv hpos
  have hle : ⌊v⌋₊ ≤ repeatLimit := by
    rw [Number.lt_iff value?_repeatLimit hwhole, not_lt] at h
    exact Nat.cast_le.1 h
  have hlimit : repeatLimit < UInt64.size := by decide
  rw [Number.toNat_toUInt64 hwhole (Nat.cast_nonneg _), Nat.floor_natCast]
  rw [Nat.floor_natCast]
  exact Nat.lt_of_le_of_lt hle hlimit

/-! ## Repeating -/

theorem repeatString_of_invalid {count : Float} (s : String)
    (h : count.isNaN ∨ count.isInf ∨ count < 0) :
    repeatString s count = .error .invalidRepeatCount :=
  if_pos ((invalid_iff count).2 h)

theorem repeatString_of_value {count : Float} {v : ℚ} (s : String) (hv : value? count = some v)
    (hpos : 0 ≤ v) :
    repeatString s count =
      if repeatLimit < s.utf8ByteSize * ⌊v⌋₊ then .error .repeatTooLarge
      else .ok (.string (String.join (List.replicate ⌊v⌋₊ s))) := by
  have hvalid := (valid_iff count).2 ⟨v, hv, hpos⟩
  have hwhole := value?_truncate hv hpos
  have hzero : truncate count == 0 ↔ ⌊v⌋₊ = 0 := by
    rw [Number.beq_iff hwhole value?_zero, Nat.cast_eq_zero]
  unfold repeatString
  rw [if_neg (mt (invalid_iff count).1 hvalid)]
  simp only [Bool.or_eq_true, String.isEmpty_iff, hzero]
  by_cases hempty : s = "" ∨ ⌊v⌋₊ = 0
  · rw [if_pos hempty]
    rcases hempty with rfl | hnone
    · simp [join_replicate_empty]
    · simp [hnone, String.join]
  rw [if_neg hempty]
  obtain ⟨hs, hk⟩ := not_or.1 hempty
  by_cases hlarge : Float.ofNat repeatLimit < truncate count
  · rw [if_pos hlarge]
    rw [Number.lt_iff value?_repeatLimit hwhole, Nat.cast_lt] at hlarge
    have hsize : 0 < s.utf8ByteSize := Nat.pos_of_ne_zero fun h => hs (by simpa using h)
    have hmany := Nat.le_mul_of_pos_left ⌊v⌋₊ hsize
    rw [if_pos (Nat.lt_of_lt_of_le hlarge hmany)]
  · rw [if_neg hlarge]
    have htimes := toNat_times hv hpos hlarge
    cases hproduct : wordProduct? s.utf8ByteSize (truncate count).toUInt64 with
    | none =>
      have hover : repeatLimit < s.utf8ByteSize * ⌊v⌋₊ := by
        refine Nat.lt_of_not_le fun hle => ?_
        obtain ⟨product, hsome⟩ := wordProduct?_of_le (htimes ▸ hle)
        cases hproduct.symm.trans hsome
      rw [if_pos hover]
    | some product =>
      have hsize := toNat_of_wordProduct? hproduct
      rw [htimes] at hsize
      simp only [hsize, htimes]
      by_cases hle : s.utf8ByteSize * ⌊v⌋₊ ≤ repeatLimit
      · rw [if_pos hle, if_neg (Nat.not_lt.2 hle)]
      · rw [if_neg hle, if_pos (Nat.lt_of_not_le hle)]

/-- A string is repeated as often as the whole part of the count says, if that makes no more than
`2 ^ 30` bytes. -/
theorem repeatString_exact (s : String) (count : Float) :
    (repeatString s count = .error .invalidRepeatCount ↔
      count.isNaN ∨ count.isInf ∨ count < 0) ∧
    (¬ (count.isNaN ∨ count.isInf ∨ count < 0) → ∃ v, value? count = some v ∧ 0 ≤ v ∧
      (repeatString s count = .error .repeatTooLarge ↔ 2 ^ 30 < s.utf8ByteSize * ⌊v⌋₊) ∧
      (s.utf8ByteSize * ⌊v⌋₊ ≤ 2 ^ 30 → ∃ t, repeatString s count = .ok (.string t) ∧
        t = String.join (List.replicate ⌊v⌋₊ s) ∧ t.utf8ByteSize = s.utf8ByteSize * ⌊v⌋₊) ∧
      (¬ Float.ofNat repeatLimit < truncate count →
        (truncate count).toUInt64.toNat = ⌊v⌋₊ ∧
        ∀ product, wordProduct? s.utf8ByteSize (truncate count).toUInt64 = some product →
          product.toNat = s.utf8ByteSize * ⌊v⌋₊)) := by
  by_cases hinvalid : count.isNaN ∨ count.isInf ∨ count < 0
  · have hrefused := repeatString_of_invalid s hinvalid
    exact ⟨iff_of_true hrefused hinvalid, fun hvalid => absurd hinvalid hvalid⟩
  obtain ⟨v, hv, hpos⟩ := (valid_iff count).1 hinvalid
  have hlimit : repeatLimit = 2 ^ 30 := rfl
  have hrepeat := repeatString_of_value s hv hpos
  rw [hlimit] at hrepeat
  refine ⟨iff_of_false ?_ hinvalid, fun _ => ⟨v, hv, hpos, ?_, ?_, ?_⟩⟩
  · rw [hrepeat]
    split <;> nofun
  · rw [hrepeat]
    split
    · next hlarge => exact iff_of_true rfl hlarge
    · next hsmall => exact iff_of_false nofun hsmall
  · intro hsmall
    rw [hrepeat, if_neg (Nat.not_lt.2 hsmall)]
    exact ⟨_, rfl, rfl, utf8ByteSize_join_replicate _ _⟩
  · intro hreached
    have htimes := toNat_times hv hpos hreached
    refine ⟨htimes, fun product hproduct => ?_⟩
    rw [toNat_of_wordProduct? hproduct, htimes]

/-- The least valid count, which has a minus sign, and the largest. -/
theorem repeatString_extremes :
    repeatString "ab" (-0.0) = .ok (.string "") ∧
      repeatString "ab" (.ofBits (Number.infinityPattern - 1).toUInt64) =
        .error .repeatTooLarge := by
  constructor
  · have hzero : Number.form (-0.0) = .finite true ⟨0, 0⟩ := by decide +kernel
    obtain ⟨v, hv, -, -, hsmall, -⟩ := (repeatString_exact "ab" (-0.0)).2 (by decide +kernel)
    obtain ⟨_, _, hform, rfl⟩ := Number.value?_eq_some_iff.1 hv
    cases hzero.symm.trans hform
    obtain ⟨t, ht, rfl, -⟩ := hsmall (by simp [Number.signedUnits, Number.Magnitude.units])
    rw [ht]
    simp [Number.signedUnits, Number.Magnitude.units, String.join]
  · have hlast := Number.form_ofBits (show Number.infinityPattern - 1 < _ by decide)
    obtain ⟨v, hv, -, hlarge, -⟩ := (repeatString_exact "ab"
      (.ofBits (Number.infinityPattern - 1).toUInt64)).2 (by decide +kernel)
    obtain ⟨_, size, hform, rfl⟩ := Number.value?_eq_some_iff.1 hv
    cases hlast.symm.trans hform
    refine hlarge.2 (Nat.lt_of_lt_of_eq ?_ (congrArg _ (Number.floor_ofUnits _).symm))
    decide +kernel

end Treewalk
