import Treewalk.Syntax.Outcome
import Treewalk.Syntax.Tree

/-!
# From tokens to trees

One function a level of precedence, from the tightest to the loosest. Each takes the parser for
what is nested inside, and `expression` and `statement` tie the knot.
-/

namespace Treewalk

open Token (Kind)

namespace Parser

/-! ## Expressions -/

def primary (expression : Parser Expr) : Parser Expr
  | t :: ts =>
    match Expr.ofToken? t with
    | some e => ⟨.ok e, ts, []⟩
    | none =>
      if t.kind = .leftParen then
        (do
          let inner ← expression
          let _ ← expect .rightParen .parenAfterExpression
          pure (Expr.grouping inner) : Parser Expr) ts
      else fail .expression (t :: ts)
  | [] => fail .expression []

def unary (primary : Parser Expr) : Parser Expr
  | t :: ts =>
    match UnaryOp.all.find? (·.kind = t.kind) with
    | some op => (unary primary ts).map (.unary op t)
    | none => primary (t :: ts)
  | [] => primary []

/-- What an operator token makes of its operands, if it belongs to the level. -/
abbrev Level := Token → Option (Expr → Expr → Expr)

def binaryLevel (ops : List BinaryOp) : Level := fun t =>
  (ops.find? (·.kind = t.kind)).map fun op => Expr.binary op t

def logicalLevel (op : LogicalOp) : Level := fun t =>
  if op.kind = t.kind then some (Expr.logical op t) else none

/-- Operators and operands after `left`, at most one for each token of the list. -/
def operations (level : Level) (operand : Parser Expr) : List Token → Expr → Parser Expr
  | [], left => pure left
  | _ :: rounds, left => fun ts =>
    match ts with
    | [] => ⟨.ok left, [], []⟩
    | t :: more =>
      match level t with
      | some build =>
        (operand >>= fun right => operations level operand rounds (build left right)) more
      | none => ⟨.ok left, t :: more, []⟩

/-- Operands with operators between them. The leftmost operator binds first. -/
def chain (level : Level) (operand : Parser Expr) : Parser Expr :=
  operand >>= fun left => bounded fun rounds => operations level operand rounds left

def factor (expression : Parser Expr) : Parser Expr :=
  chain (binaryLevel [.divide, .multiply]) (unary (primary expression))

def term (expression : Parser Expr) : Parser Expr :=
  chain (binaryLevel [.subtract, .add]) (factor expression)

def comparison (expression : Parser Expr) : Parser Expr :=
  chain (binaryLevel [.greater, .greaterEqual, .less, .lessEqual]) (term expression)

def equality (expression : Parser Expr) : Parser Expr :=
  chain (binaryLevel [.notEqual, .equal]) (comparison expression)

def conjunction (expression : Parser Expr) : Parser Expr :=
  chain (logicalLevel .and) (equality expression)

def disjunction (expression : Parser Expr) : Parser Expr :=
  chain (logicalLevel .or) (conjunction expression)

/-- The rightmost `=` binds first. A bad target is only noted: the tree keeps the left side. -/
def assignment (expression : Parser Expr) : Parser Expr := do
  let left ← disjunction expression
  match ← accept .equal with
  | none => pure left
  | some equals =>
    let value ← expression
    match left with
    | .var name => pure (.assign name value)
    | _ =>
      note .invalidAssignmentTarget equals
      pure left

def expression : Parser Expr := nested assignment

/-! ## Statements -/

/-- After `var`. -/
def declarationTail : Parser Stmt := do
  let name ← expect .identifier .variableName
  let init ← match ← accept .equal with
    | some _ => some <$> expression
    | none => pure none
  let _ ← expect .semicolon .semicolonAfterDeclaration
  pure (.declare name init)

/-- After `if`. An `else` belongs to the nearest `if`. -/
def ifTail (statement : Parser Stmt) : Parser Stmt := do
  let _ ← expect .leftParen .parenAfterIf
  let condition ← expression
  let _ ← expect .rightParen .parenAfterIfCondition
  let yes ← statement
  match ← accept .elseKw with
  | some _ => .ifElse condition yes <$> statement
  | none => pure (.ifThen condition yes)

/-- After `while`. -/
def whileTail (statement : Parser Stmt) : Parser Stmt := do
  let _ ← expect .leftParen .parenAfterWhile
  let condition ← expression
  let _ ← expect .rightParen .parenAfterWhileCondition
  .loop condition <$> statement

/-- After the keyword. -/
def printTail (keyword : Token) : Parser Stmt := do
  let e ← expression
  let _ ← expect .semicolon .semicolonAfterValue
  pure (.print keyword e)

def expressionStatement : Parser Stmt := do
  let e ← expression
  let _ ← expect .semicolon .semicolonAfterExpression
  pure (.expression e)

def declaration (statement : Parser Stmt) : Parser Stmt
  | t :: ts => if t.kind = .varKw then declarationTail ts else statement (t :: ts)
  | [] => statement []

/-- Declarations up to the end or a token of kind `stop`, at most one for each token of the list.
One that fails is left out. -/
def declarations (stop : Option Kind) (statement : Parser Stmt) : List Token → Parser (List Stmt)
  | [] => pure []
  | _ :: rounds => fun ts =>
    match ts with
    | [] => ⟨.ok [], [], []⟩
    | t :: more =>
      if stop = some t.kind then ⟨.ok [], t :: more, []⟩
      else
        (do
          let first ← recover (declaration statement)
          let others ← declarations stop statement rounds
          pure (first.toList ++ others) : Parser (List Stmt)) (t :: more)

/-- After an opening brace. -/
def blockTail (statement : Parser Stmt) : Parser Stmt := do
  let body ← bounded (declarations (some .rightBrace) statement)
  let _ ← expect .rightBrace .braceAfterBlock
  pure (.block body)

/-- A statement around what `statement` parses. -/
def statementAround (statement : Parser Stmt) : Parser Stmt
  | t :: ts =>
    match t.kind with
    | .ifKw => ifTail statement ts
    | .printKw => printTail t ts
    | .whileKw => whileTail statement ts
    | .leftBrace => blockTail statement ts
    | _ => expressionStatement (t :: ts)
  | [] => expressionStatement []

def statement : Parser Stmt := nested statementAround

def program : Parser (List Stmt) := bounded (declarations none statement)

end Parser

/-! ## Whole token lists -/

/-- The tokens before the first end token. -/
def beforeEnd (tokens : List Token) : List Token := tokens.takeWhile fun t => !t.isEnd

/-- The first end token. A list without one ends where its last token does. -/
def endToken (tokens : List Token) : Token :=
  (tokens.find? Token.isEnd).getD
    (match tokens.getLast? with
    | some last => .endAt last.line last.span.stop
    | none => .endAt 1 0)

/-- The statements that could be parsed, and every error. -/
structure Parsed where
  statements : List Stmt
  errors : List SyntaxError

namespace Parsed

def isOk (p : Parsed) : Bool := p.errors.isEmpty

end Parsed

def parse (tokens : List Token) : Parsed :=
  let o := Parser.program (beforeEnd tokens)
  { statements := o.result.toOption.getD []
    errors := o.complaints.map (·.toError (endToken tokens)) }

/-- One expression and nothing after it. -/
def parseExpression (tokens : List Token) : Except (List SyntaxError) Expr :=
  let whole : Parser Expr := do
    let e ← Parser.expression
    Parser.finish .endOfExpression
    pure e
  let o := whole (beforeEnd tokens)
  match o.result, o.complaints with
  | .ok e, [] => .ok e
  | _, complaints => .error (complaints.map (·.toError (endToken tokens)))

end Treewalk
