import Treewalk.Number.Shortest

/-!
# Writing a decimal

A decimal is written positionally (`1250.5`) or with an exponent (`1.2505e20`). A `Layout` says
where the one ends and the other begins.
-/

namespace Treewalk.Number

def digits (n : Nat) : List Char := Nat.toDigits 10 n

/-- `n` zeros. -/
def zeros (n : Nat) : List Char := List.replicate n '0'

namespace Decimal

/-- The power of ten of the first digit. -/
def leadingExponent (d : Decimal) : Int :=
  (d.place + (digits d.coefficient).length : Nat) - (onesPlace + 1 : Nat)

/-- The digits before the point, at least one, and those after it. -/
def parts (d : Decimal) : List Char × List Char :=
  let ds := digits d.coefficient
  if onesPlace ≤ d.place then (ds ++ zeros (d.place - onesPlace), [])
  else
    let scale := onesPlace - d.place
    let padded := zeros (scale + 1 - ds.length) ++ ds
    (padded.take (padded.length - scale), padded.drop (padded.length - scale))

/-- Without an exponent. A whole number has no point. -/
def positional (d : Decimal) : List Char :=
  match d.parts with
  | (whole, []) => whole
  | (whole, fraction) => whole ++ '.' :: fraction

/-- Without an exponent, and with a digit after the point. -/
def pointed (d : Decimal) : List Char :=
  match d.parts with
  | (whole, []) => whole ++ ['.', '0']
  | (whole, fraction) => whole ++ '.' :: fraction

/-- One digit, a point if more follow, and the exponent, whose plus sign is `plus`. -/
def scientific (plus : List Char) (d : Decimal) : List Char :=
  let mantissa := match digits d.coefficient with
    | first :: second :: more => first :: '.' :: second :: more
    | short => short
  let exponent := d.leadingExponent
  mantissa ++ 'e' :: (if exponent < 0 then ['-'] else plus) ++ digits exponent.natAbs

end Decimal

/-- How a number with a point is written. -/
structure Layout where
  /-- Leading exponents from `least` to `most` are written positionally. -/
  least : Int
  most : Int
  /-- What stands before an exponent that is not negative. -/
  plus : List Char
  tie : Tie

def Layout.write (layout : Layout) (m : Magnitude) : List Char :=
  if m.significand = 0 then ['0', '.', '0']
  else
    let d := m.shortest layout.tie
    let e := d.leadingExponent
    if layout.least ≤ e ∧ e ≤ layout.most then d.pointed else d.scientific layout.plus

end Treewalk.Number
