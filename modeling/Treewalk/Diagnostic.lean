import Treewalk.Eval.Error
import Treewalk.Syntax.Error

/-!
# Diagnostics

What is said about an error: a message with a code, labels on the source, and notes below it.
-/

namespace Treewalk

/-- Says something about a span of the source. -/
structure Label where
  span : Span
  message : String
deriving Repr

structure Diagnostic where
  code : Option String := none
  message : String
  labels : List Label := []
  notes : List String := []
deriving Repr

namespace Diagnostic

/-- A note that says what to do. -/
def help (advice : String) : String := "help: " ++ advice

/-- The diagnostic in one line. -/
def display (d : Diagnostic) : String :=
  match d.code with
  | some code => "error[" ++ code ++ "]: " ++ d.message
  | none => "error: " ++ d.message

end Diagnostic

namespace SyntaxError

def label (e : SyntaxError) : String :=
  match e.cause with
  | .unexpectedCharacter => "not valid here"
  | .unterminatedString => "string starts here"
  | .unterminatedComment => "comment starts here"
  | .invalidAssignmentTarget => "cannot assign to this"
  | .expected _ => ""

/-- Advice where there is some, else the place if it is at a token. -/
def notes (e : SyntaxError) : List String :=
  match e.cause with
  | .unterminatedString => [Diagnostic.help "close the string with `\"`"]
  | .unterminatedComment => [Diagnostic.help "close the comment with `*/`"]
  | .invalidAssignmentTarget => [Diagnostic.help "only a variable name can appear left of `=`"]
  | .unexpectedCharacter | .expected _ =>
    e.location.toList.map fun location => "error occurred " ++ location.text

def diagnostic (e : SyntaxError) : Diagnostic :=
  { code := e.cause.code, message := e.message, labels := [⟨e.span, e.label⟩], notes := e.notes }

end SyntaxError

namespace RuntimeError

def label (e : RuntimeError) : String :=
  match e.cause with
  | .undefinedVariable _ => "not found in this scope"
  | .divisionByZero => "division by zero here"
  | .invalidRepeatCount => "repeat count must be 0 or more"
  | .repeatTooLarge => "repeated string would be too long"
  | _ => ""

def notes (e : RuntimeError) : List String :=
  match e.cause with
  | .undefinedVariable name =>
    [Diagnostic.help ("declare it first with `var " ++ name ++ " = ...;`")]
  | .repeatTooLarge => [Diagnostic.help "use a smaller repeat count"]
  | _ => []

def diagnostic (e : RuntimeError) : Diagnostic :=
  { code := e.cause.code, message := e.message
    labels := [⟨e.token.span, e.label⟩], notes := e.notes }

end RuntimeError

end Treewalk
