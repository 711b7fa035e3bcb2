import Treewalk.Token
import Treewalk.Value

/-!
# Syntax trees

A node keeps the tokens that errors point at and that printing shows. An operator node has its
meaning beside its token, so every operator that a tree can hold has one.
-/

namespace Treewalk

inductive UnaryOp where
  | not | negate
deriving DecidableEq, Repr

inductive BinaryOp where
  | add | subtract | multiply | divide
  | equal | notEqual | greater | greaterEqual | less | lessEqual
deriving DecidableEq, Repr

inductive LogicalOp where
  | and | or
deriving DecidableEq, Repr

open Token (Kind)

def UnaryOp.kind : UnaryOp → Kind
  | not => .bang
  | negate => .minus

def UnaryOp.all : List UnaryOp := [not, negate]

def BinaryOp.kind : BinaryOp → Kind
  | add => .plus
  | subtract => .minus
  | multiply => .star
  | divide => .slash
  | equal => .equalEqual
  | notEqual => .bangEqual
  | greater => .greater
  | greaterEqual => .greaterEqual
  | less => .less
  | lessEqual => .lessEqual

def BinaryOp.all : List BinaryOp :=
  [add, subtract, multiply, divide, equal, notEqual, greater, greaterEqual, less, lessEqual]

def LogicalOp.kind : LogicalOp → Kind
  | and => .andKw
  | or => .orKw

def LogicalOp.all : List LogicalOp := [and, or]

inductive Expr where
  | literal (value : Value)
  | grouping (inner : Expr)
  | unary (op : UnaryOp) (token : Token) (operand : Expr)
  | binary (op : BinaryOp) (token : Token) (left right : Expr)
  | logical (op : LogicalOp) (token : Token) (left right : Expr)
  | var (name : Token)
  | assign (name : Token) (value : Expr)

inductive Stmt where
  | expression (e : Expr)
  | print (keyword : Token) (e : Expr)
  | declare (name : Token) (init : Option Expr)
  | block (body : List Stmt)
  | ifThen (condition : Expr) (yes : Stmt)
  | ifElse (condition : Expr) (yes no : Stmt)
  | loop (condition : Expr) (body : Stmt)

namespace Expr

/-- Equal as trees, with the places of all tokens. -/
def same : Expr → Expr → Bool
  | literal v, literal w => v.same w
  | grouping a, grouping b => a.same b
  | unary op s a, unary op' t b => op = op' && s.same t && a.same b
  | binary op s a b, binary op' t c d => op = op' && s.same t && a.same c && b.same d
  | logical op s a b, logical op' t c d => op = op' && s.same t && a.same c && b.same d
  | var s, var t => s.same t
  | assign s a, assign t b => s.same t && a.same b
  | _, _ => false

/-- The expression that a token is by itself. A number or a string token without a value is
`nil`. -/
def ofToken? (t : Token) : Option Expr :=
  match t.kind with
  | .nilKw => some (literal .nil)
  | .trueKw => some (literal (.bool true))
  | .falseKw => some (literal (.bool false))
  | .number | .string =>
    match t.literal with
    | some (.number x) => some (literal (.number x))
    | some (.string s) => some (literal (.string s))
    | none => some (literal .nil)
  | .identifier => some (var t)
  | _ => none

end Expr

end Treewalk
