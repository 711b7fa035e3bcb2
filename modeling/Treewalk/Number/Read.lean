import Treewalk.Number.Binary

/-!
# Reading a number

A number is written as digits, or as digits, a point and digits. It means the double nearest to
that decimal fraction.
-/

namespace Treewalk.Number

def digitsValue (digits : List Char) : Nat :=
  digits.foldl (fun n c => 10 * n + (c.toNat - '0'.toNat)) 0

/-- The digits before the point, and those after it. -/
def splitPoint (text : List Char) : List Char × List Char :=
  (text.takeWhile Char.isDigit, (text.dropWhile Char.isDigit).drop 1)

def read (text : List Char) : Float :=
  let (whole, fraction) := splitPoint text
  .ofBits (nearest (digitsValue (whole ++ fraction)) (Nat.pow 10 fraction.length)).toUInt64

end Treewalk.Number
