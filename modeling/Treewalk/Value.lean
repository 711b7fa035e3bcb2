import Treewalk.Number.Display

/-!
# Values

What a variable holds and what an expression means.
-/

namespace Treewalk

inductive Value where
  | nil
  | bool (b : Bool)
  | number (x : Float)
  | string (s : String)

namespace Value

/-- `nil` and `false` are false. All else is true, zero and the empty string included. -/
def truthy : Value → Bool
  | nil => false
  | bool b => b
  | _ => true

/-- Values of different kinds differ, and a number that is not a number differs from itself. -/
def same : Value → Value → Bool
  | nil, nil => true
  | bool a, bool b => a == b
  | number x, number y => x == y
  | string s, string t => s == t
  | _, _ => false

def display : Value → String
  | nil => "nil"
  | bool true => "true"
  | bool false => "false"
  | number x => Number.display x
  | string s => s

end Value

end Treewalk
