import Treewalk.Syntax.Outcome
import Treewalk.Syntax.Tree
import Treewalk.Token.Scan

/-!
# Reading the printed form of an expression

`readExpr` turns the text that `Expr.print` gives back into an expression. The head of a form
says how many parts follow, except for `-`, which has one or two.
-/

namespace Treewalk

open Token (Kind)

/-- Takes tokens from the front of a list, or stops with a complaint. -/
abbrev Reader := StateT (List Token) (Except Complaint)

namespace Reader

variable {α : Type}

/-- Complains about a token, or about the end. -/
def complain (what : Expectation) (token : Option Token) : Reader α :=
  throw ⟨.expected what, token⟩

/-- Takes the next token. At the end it takes nothing. -/
def next : Reader (Option Token) := modifyGet fun ts => (ts.head?, ts.tail)

def peek : Reader (Option Token) := return (← get).head?

def expect (kind : Kind) (what : Expectation) : Reader Token := do
  match ← peek with
  | some t =>
    if t.kind = kind then
      let _ ← next
      pure t
    else complain what (some t)
  | none => complain what none

/-- A variable called `group` is told from the head `group` by where it stands. -/
def isGroup (head : Token) : Bool := head.kind = .identifier && head.lexeme = "group"

/-- What follows the head of a form, up to its closing parenthesis. -/
def formParts (expr : Reader Expr) (head : Token) : Reader Expr := do
  if isGroup head then
    return .grouping (← expr)
  if head.kind = .equal then
    let name ← expect .identifier .variableName
    return .assign name (← expr)
  if let some op := LogicalOp.all.find? (·.kind = head.kind) then
    let left ← expr
    return .logical op head left (← expr)
  if head.kind = .minus then
    let first ← expr
    if (← peek).any (·.kind = .rightParen) then
      return .unary .negate head first
    return .binary .subtract head first (← expr)
  if let some op := UnaryOp.all.find? (·.kind = head.kind) then
    return .unary op head (← expr)
  if let some op := BinaryOp.all.find? (·.kind = head.kind) then
    let left ← expr
    return .binary op head left (← expr)
  complain .operator head

/-- After an opening parenthesis. -/
def formTail (expr : Reader Expr) : Reader Expr := do
  match ← next with
  | none => complain .operator none
  | some head =>
    let e ← formParts expr head
    let _ ← expect .rightParen .parenAfterForm
    return e

/-- The bound is on how deep forms are nested. -/
def exprWithin : Nat → Reader Expr
  | 0 => complain .expression none
  | n + 1 => do
    match ← next with
    | none => complain .expression none
    | some t =>
      match Expr.ofToken? t with
      | some e => return e
      | none => if t.kind = .leftParen then formTail (exprWithin n) else complain .expression t

/-- One expression and nothing after it. -/
def whole : Reader Expr := do
  let e ← exprWithin ((← get).length + 1)
  match ← peek with
  | none => return e
  | some t => complain .endOfInput t

end Reader

/-- An error in the characters comes before any other. -/
def readExpr (text : String) : Except SyntaxError Expr :=
  let scanned := scan text
  match scanned.errors with
  | error :: _ => .error error
  | [] =>
    let tokens := scanned.tokens.takeWhile fun t => !t.isEnd
    match Reader.whole.run tokens with
    | .ok (e, _) => .ok e
    | .error complaint =>
      .error (complaint.toError (scanned.tokens.getLast?.getD (.endAt 1 0)))

end Treewalk
