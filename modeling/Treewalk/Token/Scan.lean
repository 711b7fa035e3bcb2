import Treewalk.Lexeme
import Treewalk.Number.Read
import Treewalk.Syntax.Error

/-!
# Scanning

Every lexeme becomes a token, an error, or nothing if it is a comment. One end token follows.
-/

namespace Treewalk

open Source

structure Scan where
  tokens : List Token
  errors : List SyntaxError

namespace Lexeme

/-- A string's value is the text between the quotes. -/
def literal? (l : Lexeme) : Option Literal :=
  match l.kind with
  | .number => some (.number (Number.read l.text))
  | .string => some (.string (.ofList (l.text.drop 1).dropLast))
  | _ => none

def tokenKind? (l : Lexeme) : Option Token.Kind :=
  match l.kind with
  | .token kind => some kind
  | .number => some .number
  | .string => some .string
  | .identifier => some .identifier
  | _ => none

def token? (lines : LineTable) (l : Lexeme) : Option Token :=
  l.tokenKind?.map fun kind =>
    { kind
      lexeme := .ofList l.text
      literal := l.literal?
      line := lines.line l.start
      span := l.span }

/-- What is wrong, and how many bytes from the start of the lexeme show it. -/
def fault? (l : Lexeme) : Option (SyntaxError.Cause × Nat) :=
  match l.kind with
  | .unexpected c => some (.unexpectedCharacter, c.utf8Size)
  | .unterminatedString => some (.unterminatedString, 1)
  | .unterminatedComment => some (.unterminatedComment, 2)
  | _ => none

def error? (lines : LineTable) (l : Lexeme) : Option SyntaxError :=
  l.fault?.map fun (cause, n) =>
    { cause
      line := lines.line l.start
      location := none
      span := ⟨l.start, l.start + n⟩ }

end Lexeme

namespace Scan

def isOk (s : Scan) : Bool := s.errors.isEmpty

def ofText (source : List Char) : Scan :=
  let lines := LineTable.ofText source
  let lexemes := Lexeme.lex source
  let stop := byteLength source
  { tokens := lexemes.filterMap (·.token? lines) ++ [Token.endAt (lines.line stop) stop]
    errors := lexemes.filterMap (·.error? lines) }

end Scan

def scan (source : String) : Scan := .ofText source.toList

end Treewalk
