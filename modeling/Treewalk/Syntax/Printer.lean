import Treewalk.Syntax.Tree

/-!
# The printed form of a tree

Prefix form with every operator in parentheses: `1 + 2 * 3` is `(+ 1 (* 2 3))`. Operators and
names are shown as their tokens spell them.
-/

namespace Treewalk

/-- What follows the head of a form. -/
def formTail : List String → String
  | [] => ")"
  | part :: parts => " " ++ part ++ formTail parts

def form (head : String) (parts : List String) : String := "(" ++ head ++ formTail parts

namespace Value

/-- Like `display`, but a string has its quotes. -/
def print : Value → String
  | string s => "\"" ++ s ++ "\""
  | v => v.display

end Value

namespace Expr

def print : Expr → String
  | literal v => v.print
  | grouping inner => form "group" [inner.print]
  | unary _ t operand => form t.lexeme [operand.print]
  | binary _ t left right => form t.lexeme [left.print, right.print]
  | logical _ t left right => form t.lexeme [left.print, right.print]
  | var name => name.lexeme
  | assign name value => form "=" [name.lexeme, value.print]

end Expr

namespace Stmt

mutual

/-- The printed form of a statement. -/
def render : Stmt → String
  | expression e => form ";" [e.print]
  | print _ e => form "scream" [e.print]
  | declare name none => form "var" [name.lexeme]
  | declare name (some e) => form "var" [name.lexeme, e.print]
  | block body => form "block" (renderAll body)
  | ifThen condition yes => form "if" [condition.print, yes.render]
  | ifElse condition yes no => form "if" [condition.print, yes.render, no.render]
  | loop condition body => form "while" [condition.print, body.render]

def renderAll : List Stmt → List String
  | [] => []
  | s :: body => s.render :: renderAll body

end

end Stmt

end Treewalk
