import Treewalk.Environment
import Treewalk.Eval.Operator

/-!
# Evaluating an expression

Operands go from left to right, and the first error stops everything. Only the values of
variables can change.
-/

namespace Treewalk

/-- A value or an error, and the variables after it. -/
structure Evaluated where
  result : Except RuntimeError Value
  env : Environment

namespace Evaluated

/-- Goes on with the value. -/
@[inline] def andThen (x : Evaluated) (next : Value → Environment → Evaluated) : Evaluated :=
  match x.result with
  | .ok v => next v x.env
  | .error e => ⟨.error e, x.env⟩

end Evaluated

/-- Attributes a failure to a token. -/
def blame (token : Token) : Except RuntimeError.Cause Value → Except RuntimeError Value
  | .ok v => .ok v
  | .error cause => .error ⟨token, cause⟩

def undefined (name : Token) : RuntimeError := ⟨name, .undefinedVariable name.lexeme⟩

namespace Expr

def eval : Expr → Environment → Evaluated
  | literal v, env => ⟨.ok v, env⟩
  | grouping inner, env => inner.eval env
  | unary op t operand, env =>
    (operand.eval env).andThen fun v env => ⟨blame t (op.apply v), env⟩
  | binary op t left right, env =>
    (left.eval env).andThen fun a env =>
      (right.eval env).andThen fun b env => ⟨blame t (op.apply a b), env⟩
  | logical op _ left right, env =>
    (left.eval env).andThen fun a env => if op.decidedBy a then ⟨.ok a, env⟩ else right.eval env
  | var name, env =>
    match env.get? name.lexeme with
    | some v => ⟨.ok v, env⟩
    | none => ⟨.error (undefined name), env⟩
  | assign name value, env =>
    (value.eval env).andThen fun v env =>
      match env.assign? name.lexeme v with
      | some env => ⟨.ok v, env⟩
      | none => ⟨.error (undefined name), env⟩

end Expr

end Treewalk
