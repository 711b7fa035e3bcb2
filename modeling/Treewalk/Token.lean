import Treewalk.Number.Display
import Treewalk.Source.Span
import Treewalk.Token.Kind

/-!
# Tokens

A token is a word of the language with its place in the source.
-/

namespace Treewalk

/-- The value that a number or a string token carries. -/
inductive Literal where
  | number (x : Float)
  | string (s : String)

namespace Literal

/-- Numbers in a token listing: an exponent from `1e16` up and below `1e-4`. -/
def layout : Number.Layout := { least := -4, most := 15, plus := [], tie := .up }

def numberText (x : Float) : String :=
  match Number.form x with
  | .nan => "NaN"
  | .infinite negative => Number.signed negative "inf".toList
  | .finite negative m => Number.signed negative (layout.write m)

def text : Literal → String
  | .number x => numberText x
  | .string s => s

/-- Numbers are compared as numbers. -/
def same : Literal → Literal → Bool
  | .number x, .number y => x == y
  | .string s, .string t => s == t
  | _, _ => false

end Literal

structure Token where
  kind : Token.Kind
  lexeme : String
  literal : Option Literal := none
  line : Nat
  span : Span

namespace Token

/-- The token that ends a source. -/
def endAt (line offset : Nat) : Token :=
  { kind := .eof, lexeme := "", line, span := ⟨offset, offset⟩ }

def isEnd (t : Token) : Bool := t.kind = .eof

/-- One line of a token listing. -/
def listing (t : Token) : String :=
  let start := s!"{t.line} {t.kind.name} '" ++ t.lexeme ++ "'"
  match t.literal with
  | some literal => start ++ " " ++ literal.text
  | none => start

def same (s t : Token) : Bool :=
  s.kind = t.kind && s.lexeme = t.lexeme && s.line = t.line && s.span = t.span &&
    match s.literal, t.literal with
    | some a, some b => a.same b
    | none, none => true
    | _, _ => false

end Token

end Treewalk
