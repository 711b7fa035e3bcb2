import Treewalk.Token

/-!
# Errors while running
-/

namespace Treewalk

namespace RuntimeError

inductive Cause where
  | operandNotNumber
  | operandsNotNumbers
  | divisionByZero
  | invalidAddOperands
  | undefinedVariable (name : String)
  | invalidRepeatCount
  | repeatTooLarge
  | output (reason : String)
deriving DecidableEq, Repr

namespace Cause

def message : Cause → String
  | operandNotNumber => "Operand must be a number."
  | operandsNotNumbers => "Operands must be numbers."
  | divisionByZero => "Dividing by zero is not cool."
  | invalidAddOperands => "Operands must be either numbers or strings."
  | undefinedVariable name => "Undefined variable '" ++ name ++ "'."
  | invalidRepeatCount => "String repeat count must be a non-negative number."
  | repeatTooLarge => "String repeat result is too large."
  | output reason => "Failed to write output: " ++ reason

def code : Cause → String
  | undefinedVariable _ => "E0201"
  | operandNotNumber | operandsNotNumbers | invalidAddOperands => "E0202"
  | divisionByZero => "E0203"
  | invalidRepeatCount | repeatTooLarge => "E0204"
  | output _ => "E0205"

end Cause

end RuntimeError

/-- A failure and the token whose operation failed. -/
structure RuntimeError where
  token : Token
  cause : RuntimeError.Cause

namespace RuntimeError

def line (e : RuntimeError) : Nat := e.token.line

def message (e : RuntimeError) : String := e.cause.message

def display (e : RuntimeError) : String := e.message ++ s!"\n[line {e.line}]"

end RuntimeError

end Treewalk
