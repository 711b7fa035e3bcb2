import Treewalk.Source.Lines
import Treewalk.Source.Span
import Treewalk.Token.Kind

/-!
# Lexemes

`lex` cuts a source into lexemes and drops the blanks between them. Each lexeme is as long as it
can be, and no source is refused: what cannot be read is a lexeme too.
-/

namespace Treewalk

namespace Lexeme

inductive Kind where
  /-- An operator or a reserved word. -/
  | token (kind : Token.Kind)
  | number
  | string
  | identifier
  | comment
  | unexpected (c : Char)
  | unterminatedString
  | unterminatedComment
deriving DecidableEq, Repr

end Lexeme

structure Lexeme where
  kind : Lexeme.Kind
  start : Nat
  text : List Char
deriving DecidableEq, Repr

namespace Lexeme

def span (l : Lexeme) : Span := ⟨l.start, l.start + Source.byteLength l.text⟩

/-! ## Classes of character -/

def isBlank (c : Char) : Bool := c = ' ' || c = '\r' || c = '\t' || c = '\n'

def startsWord (c : Char) : Bool := c.isAlpha || c = '_'

def inWord (c : Char) : Bool := c.isAlphanum || c = '_'

/-! ## The first lexeme

Each function below gets what follows the first character of the lexeme, or its first two, and
says what the lexeme is and how many more characters belong to it. -/

/-- Up to and with the first `*/`. -/
def commentLength? : List Char → Option Nat
  | '*' :: '/' :: _ => some 2
  | _ :: text => (commentLength? text).map (· + 1)
  | [] => none

/-- Up to and with the next quote. -/
def quotedLength? : List Char → Option Nat
  | '"' :: _ => some 1
  | _ :: text => (quotedLength? text).map (· + 1)
  | [] => none

/-- After a `/`. -/
def afterSlash : List Char → Kind × Nat
  | '/' :: text => (.comment, 1 + (text.takeWhile (· ≠ '\n')).length)
  | '*' :: text =>
    match commentLength? text with
    | some n => (.comment, 1 + n)
    | none => (.unterminatedComment, 1 + text.length)
  | _ => (.token .slash, 0)

/-- After a digit. A point belongs to the number only before another digit. -/
def afterDigit (text : List Char) : Nat :=
  let whole := (text.takeWhile Char.isDigit).length
  match text.drop whole with
  | '.' :: d :: more =>
    if d.isDigit then whole + 2 + (more.takeWhile Char.isDigit).length else whole
  | _ => whole

def afterQuote (text : List Char) : Kind × Nat :=
  match quotedLength? text with
  | some n => (.string, n)
  | none => (.unterminatedString, text.length)

def wordKind (word : List Char) : Kind :=
  match Token.Kind.keyword? (.ofList word) with
  | some kind => .token kind
  | none => .identifier

/-- The longer operator if `=` follows. -/
def orEqual (alone withEqual : Token.Kind) : List Char → Kind × Nat
  | '=' :: _ => (.token withEqual, 1)
  | _ => (.token alone, 0)

def operator (c : Char) (text : List Char) : Kind × Nat :=
  match c with
  | '(' => (.token .leftParen, 0)
  | ')' => (.token .rightParen, 0)
  | '\x7b' => (.token .leftBrace, 0)
  | '\x7d' => (.token .rightBrace, 0)
  | ',' => (.token .comma, 0)
  | '.' => (.token .dot, 0)
  | '-' => (.token .minus, 0)
  | '+' => (.token .plus, 0)
  | ';' => (.token .semicolon, 0)
  | '*' => (.token .star, 0)
  | '!' => orEqual .bang .bangEqual text
  | '=' => orEqual .equal .equalEqual text
  | '>' => orEqual .greater .greaterEqual text
  | '<' => orEqual .less .lessEqual text
  | c => (.unexpected c, 0)

/-- The lexeme that starts with `c`, and how many characters of `text` it takes. -/
def munch (c : Char) (text : List Char) : Kind × Nat :=
  if c = '/' then afterSlash text
  else if c.isDigit then (.number, afterDigit text)
  else if c = '"' then afterQuote text
  else if startsWord c then
    let more := text.takeWhile inWord
    (wordKind (c :: more), more.length)
  else operator c text

/-! ## All lexemes -/

/-- The lexemes of a text that begins at `offset`. -/
def lexFrom (offset : Nat) : List Char → List Lexeme
  | [] => []
  | c :: text =>
    if isBlank c then lexFrom (offset + c.utf8Size) text
    else
      let (kind, n) := munch c text
      let lexeme : Lexeme := ⟨kind, offset, c :: text.take n⟩
      lexeme :: lexFrom lexeme.span.stop (text.drop n)
termination_by text => text.length

def lex (source : List Char) : List Lexeme := lexFrom 0 source

end Lexeme

end Treewalk
