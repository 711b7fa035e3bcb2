/-!
# Doubles as exact numbers

A double is an infinity, not a number, or a sign and a whole number of *units*. The unit is
`2 ^ -1074`, the least positive double. Reading and writing numbers is decided on units, so
it is exact arithmetic on natural numbers.
-/

namespace Treewalk.Number

/-- How many units make 1. -/
def one : Nat := Nat.pow 2 1074

/-- The bit above the 52 bits of the fraction. -/
def hiddenBit : Nat := Nat.pow 2 52

def signBit : Nat := Nat.pow 2 63

/-- A size without a sign: `significand * 2 ^ exponent` units. -/
structure Magnitude where
  significand : Nat
  exponent : Nat
deriving DecidableEq, Repr

namespace Magnitude

def units (m : Magnitude) : Nat := m.significand * Nat.pow 2 m.exponent

/-- The whole part. -/
def whole (m : Magnitude) : Nat := m.units / one

def isWhole (m : Magnitude) : Bool := m.units % one = 0

/-- The magnitude of a finite pattern: 11 bits of exponent above 52 bits of fraction. The
patterns with exponent 0 have no hidden bit. -/
def ofPattern (pattern : Nat) : Magnitude :=
  let field := pattern / hiddenBit
  let fraction := pattern % hiddenBit
  if field = 0 then ⟨fraction, 0⟩ else ⟨hiddenBit + fraction, field - 1⟩

end Magnitude

/-- The pattern of infinity. The patterns below it are the finite ones, in order of size. -/
def infinityPattern : Nat := 2047 * hiddenBit

inductive Form where
  | nan
  | infinite (negative : Bool)
  | finite (negative : Bool) (size : Magnitude)
deriving DecidableEq, Repr

/-- Takes a double apart. -/
def form (x : Float) : Form :=
  let bits := x.toBits.toNat
  let negative := decide (signBit ≤ bits)
  let pattern := bits % signBit
  if pattern < infinityPattern then .finite negative (.ofPattern pattern)
  else if pattern = infinityPattern then .infinite negative
  else .nan

/-! ## Rounding -/

/-- The nearest whole number to `num / den`. Halfway goes to the even one. -/
def roundDiv (num den : Nat) : Nat :=
  let q := num / den
  let r := num % den
  if 2 * r < den then q
  else if den < 2 * r then q + 1
  else q + q % 2

/-- The pattern of the double nearest to `num / den`. Halfway goes to the even pattern, and
what rounds past the largest double is infinity. -/
def nearest (num den : Nat) : Nat :=
  let exponent := (num * one / den).log2 - 52
  let significand := roundDiv (num * one) (den * Nat.pow 2 exponent)
  min infinityPattern (exponent * hiddenBit + significand)

/-- Without the fraction. The sign stays, also that of a zero. -/
def truncate (x : Float) : Float :=
  match form x with
  | .finite negative size =>
    let whole := Float.ofBits (nearest size.whole 1).toUInt64
    if negative then -whole else whole
  | _ => x

end Treewalk.Number
