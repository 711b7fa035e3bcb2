import Treewalk.Eval.Error
import Treewalk.Syntax.Tree

/-!
# Operators on values
-/

namespace Treewalk

open RuntimeError (Cause)

namespace UnaryOp

def apply : UnaryOp → Value → Except Cause Value
  | not, v => .ok (.bool !v.truthy)
  | negate, .number x => .ok (.number (-x))
  | negate, _ => .error .operandNotNumber

end UnaryOp

/-- The most bytes that repeating a string may give: a gibibyte. -/
def repeatLimit : Nat := 1024 * 1024 * 1024

/-- The product, if a word of 64 bits can hold it. -/
def wordProduct? (size : Nat) (times : UInt64) : Option UInt64 :=
  if size * times.toNat < UInt64.size then some (size.toUInt64 * times) else none

/-- `s` as often as the whole part of `count` says. -/
def repeatString (s : String) (count : Float) : Except Cause Value :=
  if !count.isFinite || count < 0 then .error .invalidRepeatCount
  else
    let count := Number.truncate count
    if s.isEmpty || count == 0 then .ok (.string "")
    -- A count up to the limit is a word, and a larger one need not be.
    else if Float.ofNat repeatLimit < count then .error .repeatTooLarge
    else
      let times := count.toUInt64
      match wordProduct? s.utf8ByteSize times with
      | some size =>
        if size.toNat ≤ repeatLimit then .ok (.string (String.join (List.replicate times.toNat s)))
        else .error .repeatTooLarge
      | none => .error .repeatTooLarge

namespace BinaryOp

/-- An operator that takes numbers only. -/
def onNumbers (f : Float → Float → Value) : Value → Value → Except Cause Value
  | .number x, .number y => .ok (f x y)
  | _, _ => .error .operandsNotNumbers

/-- A string and a number make a string, with the number as it is displayed. -/
def sum : Value → Value → Except Cause Value
  | .number x, .number y => .ok (.number (x + y))
  | .string s, .string t => .ok (.string (s ++ t))
  | .string s, .number y => .ok (.string (s ++ Number.display y))
  | .number x, .string t => .ok (.string (Number.display x ++ t))
  | _, _ => .error .invalidAddOperands

/-- A string times a number, in either order, is the string repeated. -/
def product : Value → Value → Except Cause Value
  | .number x, .number y => .ok (.number (x * y))
  | .string s, .number y => repeatString s y
  | .number x, .string t => repeatString t x
  | _, _ => .error .operandsNotNumbers

def isZero : Value → Bool
  | .number x => x == 0
  | _ => false

/-- A zero divisor is reported whatever it divides. -/
def quotient (a b : Value) : Except Cause Value :=
  if isZero b then .error .divisionByZero
  else onNumbers (fun x y => .number (x / y)) a b

def apply : BinaryOp → Value → Value → Except Cause Value
  | add => sum
  | subtract => onNumbers fun x y => .number (x - y)
  | multiply => product
  | divide => quotient
  | equal => fun a b => .ok (.bool (a.same b))
  | notEqual => fun a b => .ok (.bool !a.same b)
  | greater => onNumbers fun x y => .bool (x > y)
  | greaterEqual => onNumbers fun x y => .bool (x ≥ y)
  | less => onNumbers fun x y => .bool (x < y)
  | lessEqual => onNumbers fun x y => .bool (x ≤ y)

end BinaryOp

namespace LogicalOp

/-- Is the left operand the result, so that the right one is not looked at? -/
def decidedBy : LogicalOp → Value → Bool
  | and, v => !v.truthy
  | or, v => v.truthy

end LogicalOp

end Treewalk
