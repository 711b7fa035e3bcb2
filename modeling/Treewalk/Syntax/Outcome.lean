import Treewalk.Syntax.Error

/-!
# Parsers

A parser takes tokens from the front of a list. It fails at the token it stands before, and it
can note a complaint and go on. The list has no end token: at its end a parser stands before
nothing.
-/

namespace Treewalk

/-- An error before its place in the source is known. Without a token it is at the end. -/
structure Complaint where
  cause : SyntaxError.Cause
  token : Option Token

namespace Complaint

/-- The place is that of the token, or of the end token `stop`. -/
def toError (stop : Token) (c : Complaint) : SyntaxError :=
  .atToken c.cause (c.token.getD stop)

end Complaint

structure Outcome (α : Type) where
  result : Except Expectation α
  rest : List Token
  /-- Complaints that did not stop the parser, in order. -/
  noted : List Complaint

namespace Outcome

variable {α β : Type}

def map (f : α → β) (o : Outcome α) : Outcome β := { o with result := o.result.map f }

/-- All complaints: those noted, and the failure at the end if there is one. -/
def complaints (o : Outcome α) : List Complaint :=
  match o.result with
  | .ok _ => o.noted
  | .error what => o.noted ++ [⟨.expected what, o.rest.head?⟩]

end Outcome

def Parser (α : Type) := List Token → Outcome α

namespace Parser

variable {α β : Type}

protected def pure (a : α) : Parser α := fun ts => ⟨.ok a, ts, []⟩

protected def bind (p : Parser α) (f : α → Parser β) : Parser β := fun ts =>
  let o := p ts
  match o.result with
  | .ok a =>
    let o' := f a o.rest
    { o' with noted := o.noted ++ o'.noted }
  | .error what => ⟨.error what, o.rest, o.noted⟩

instance : Monad Parser where
  pure := Parser.pure
  bind := Parser.bind

def fail (what : Expectation) : Parser α := fun ts => ⟨.error what, ts, []⟩

def note (cause : SyntaxError.Cause) (token : Token) : Parser Unit := fun ts =>
  ⟨.ok (), ts, [⟨cause, some token⟩]⟩

/-- Takes the next token if it is of this kind. -/
def accept (kind : Token.Kind) : Parser (Option Token)
  | t :: ts => if t.kind = kind then ⟨.ok (some t), ts, []⟩ else ⟨.ok none, t :: ts, []⟩
  | [] => ⟨.ok none, [], []⟩

def expect (kind : Token.Kind) (what : Expectation) : Parser Token := do
  match ← accept kind with
  | some t => pure t
  | none => fail what

/-- Nothing may be left. -/
def finish (what : Expectation) : Parser Unit
  | [] => ⟨.ok (), [], []⟩
  | ts => ⟨.error what, ts, []⟩

/-! ## Repetition and nesting

A token is taken once, so the tokens that are left bound how often a parser can go round and how
deep it can nest. -/

/-- Lets a parser go round once for each token that is left. -/
def bounded (p : List Token → Parser α) : Parser α := fun ts => p ts ts

/-- `around` what `around` parses, as many levels deep as there are tokens in the list. -/
def levels (around : Parser α → Parser α) : List Token → Parser α
  | [] => around (fail .expression)
  | _ :: ts => around (levels around ts)

/-- A parser that may stand inside itself. What is inside has to follow some token. -/
def nested (around : Parser α → Parser α) : Parser α := bounded (levels around)

/-! ## Recovery -/

/-- Skips to the next place where a statement may start: at least one token, up to and with the
first `;`, or up to and without the first token that starts a statement. -/
def synchronize : List Token → List Token
  | [] => []
  | t :: ts =>
    if t.kind = .semicolon || ts.head?.any (·.kind.startsStatement) then ts else synchronize ts

/-- A failure becomes one more complaint, and parsing resumes at the next statement. -/
def recover (p : Parser α) : Parser (Option α) := fun ts =>
  let o := p ts
  match o.result with
  | .ok a => ⟨.ok (some a), o.rest, o.noted⟩
  | .error _ => ⟨.ok none, synchronize o.rest, o.complaints⟩

end Parser

end Treewalk
