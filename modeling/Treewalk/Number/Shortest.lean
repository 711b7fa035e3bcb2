import Treewalk.Number.Binary

/-!
# The shortest decimal that reads back

Many decimals round to one double. `shortest` takes one on the coarsest decimal grid that has
any, and of two on that grid the nearer. Halfway between two is left to the caller.
-/

namespace Treewalk.Number

/-- `coefficient * 10 ^ (place - 324)`. Place 0 is the first that is finer than the unit. -/
structure Decimal where
  coefficient : Nat
  place : Nat
deriving DecidableEq, Repr

/-- Which of two equally near decimals is taken. -/
inductive Tie where
  | up
  | even
deriving DecidableEq, Repr

/-- The place of 1. -/
def onesPlace : Nat := 324

/-- How many steps of place 0 make 1. -/
def oneInSteps : Nat := Nat.pow 10 onesPlace

/-- What rounds to one double, in quarters of a unit. -/
structure Basin where
  low : Nat
  high : Nat
  /-- Do the ends belong to it? -/
  closed : Bool
deriving DecidableEq, Repr

namespace Basin

def contains (b : Basin) (d : Decimal) : Bool :=
  let x := d.coefficient * Nat.pow 10 d.place * (4 * one)
  let low := b.low * oneInSteps
  let high := b.high * oneInSteps
  if b.closed then low ≤ x && x ≤ high else low < x && x < high

end Basin

namespace Magnitude

/-- Halfway to the neighbours. Below a power of two the neighbours are twice as dense. -/
def basin (m : Magnitude) : Basin :=
  let step := Nat.pow 2 m.exponent
  let denser := m.significand = hiddenBit ∧ 0 < m.exponent
  { low := 4 * m.units - (if denser then step else 2 * step)
    high := 4 * m.units + 2 * step
    closed := m.significand % 2 = 0 }

/-- The nearest decimal on the grid of `place` that reads back, if one does. Only the two
neighbours on the grid matter: the basin has the number itself inside. -/
def onGrid? (tie : Tie) (m : Magnitude) (place : Nat) : Option Decimal :=
  let grid := Nat.pow 10 place * (4 * one)
  let x := 4 * m.units * oneInSteps
  let k := x / grid
  let r := x % grid
  let below : Decimal := ⟨k, place⟩
  let above : Decimal := ⟨k + 1, place⟩
  match m.basin.contains below, m.basin.contains above with
  | true, true =>
    if 2 * r < grid then below
    else if grid < 2 * r then above
    else if tie = .even && k % 2 = 0 then below
    else above
  | true, false => below
  | false, true => above
  | false, false => none

/-- A place above every digit of the number. -/
def topPlace (m : Magnitude) : Nat :=
  -- 30103 / 100000 is just above the digits that one bit takes.
  ((m.units * oneInSteps / one).log2 + 1) * 30103 / 100000 + 1

def shortestFrom (tie : Tie) (m : Magnitude) : Nat → Decimal
  | 0 => (m.onGrid? tie 0).getD ⟨m.units * oneInSteps / one, 0⟩
  | place + 1 => (m.onGrid? tie (place + 1)).getD (shortestFrom tie m place)

def shortest (tie : Tie) (m : Magnitude) : Decimal := m.shortestFrom tie m.topPlace

end Magnitude

end Treewalk.Number
