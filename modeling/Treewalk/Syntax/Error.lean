import Treewalk.Token

/-!
# Errors in a source text
-/

namespace Treewalk

/-- What the parser or the reader of the printed form wanted to see. -/
inductive Expectation where
  | expression
  | endOfExpression
  | variableName
  | semicolonAfterDeclaration
  | semicolonAfterExpression
  | semicolonAfterValue
  | parenAfterIf
  | parenAfterIfCondition
  | parenAfterWhile
  | parenAfterWhileCondition
  | parenAfterExpression
  | braceAfterBlock
  | operator
  | parenAfterForm
  | endOfInput
deriving DecidableEq, Repr

def Expectation.message : Expectation → String
  | expression => "Expect expression."
  | endOfExpression => "Expect end of expression."
  | variableName => "Expect variable name."
  | semicolonAfterDeclaration => "Expect ';' after variable declaration."
  | semicolonAfterExpression => "Expect ';' after expression."
  | semicolonAfterValue => "Expect ';' after value."
  | parenAfterIf => "Expect '(' after 'if'."
  | parenAfterIfCondition => "Expect ')' after if condition."
  | parenAfterWhile => "Expect '(' after 'while'."
  | parenAfterWhileCondition => "Expect ')' after while condition."
  | parenAfterExpression => "Expect ')' after expression."
  | braceAfterBlock => "Expect '\x7d' after block."
  | operator => "Expect operator."
  | parenAfterForm => "Expect ')' after form."
  | endOfInput => "Expect end of input."

namespace SyntaxError

inductive Cause where
  | unexpectedCharacter
  | unterminatedString
  | unterminatedComment
  | expected (what : Expectation)
  | invalidAssignmentTarget
deriving DecidableEq, Repr

namespace Cause

def code : Cause → String
  | unexpectedCharacter => "E0001"
  | unterminatedString => "E0002"
  | unterminatedComment => "E0003"
  | expected _ => "E0101"
  | invalidAssignmentTarget => "E0102"

def message : Cause → String
  | unexpectedCharacter => "Unexpected character."
  | unterminatedString => "Unterminated string."
  | unterminatedComment => "Unterminated block comment."
  | expected what => what.message
  | invalidAssignmentTarget => "Invalid assignment target."

end Cause

/-- Which token an error is at. An error in the characters is at no token. -/
inductive Location where
  | atEnd
  | atLexeme (lexeme : String)
deriving DecidableEq, Repr

def Location.text : Location → String
  | atEnd => "at end"
  | atLexeme lexeme => "at '" ++ lexeme ++ "'"

end SyntaxError

structure SyntaxError where
  cause : SyntaxError.Cause
  line : Nat
  location : Option SyntaxError.Location
  span : Span
deriving DecidableEq, Repr

namespace SyntaxError

def atToken (cause : Cause) (t : Token) : SyntaxError :=
  { cause
    line := t.line
    location := some (if t.isEnd then .atEnd else .atLexeme t.lexeme)
    span := t.span }

def message (e : SyntaxError) : String := e.cause.message

def display (e : SyntaxError) : String :=
  let place := match e.location with
    | some location => " " ++ location.text
    | none => ""
  s!"[line {e.line}] Error" ++ place ++ ": " ++ e.message

end SyntaxError

end Treewalk
