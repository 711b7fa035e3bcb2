import Treewalk.Number.Layout

/-!
# The number a program shows

A whole number is shown with all its digits and no point. Any other number is shown with the
fewest digits that read back. There is never an exponent.
-/

namespace Treewalk.Number

def signed (negative : Bool) (text : List Char) : String :=
  .ofList (if negative then '-' :: text else text)

def displayMagnitude (m : Magnitude) : List Char :=
  if m.isWhole then digits m.whole else (m.shortest .up).positional

/-- Zero keeps its sign. -/
def display (x : Float) : String :=
  match form x with
  | .nan => "NaN"
  | .infinite negative => signed negative "Infinity".toList
  | .finite negative m => signed negative (displayMagnitude m)

end Treewalk.Number
