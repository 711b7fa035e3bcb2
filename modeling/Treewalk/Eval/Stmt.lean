import Treewalk.Eval.Expr
import Treewalk.Eval.Sink

/-!
# Running statements

A program need not end, so running one has a bound on how deep statements nest and loops turn.
`none` means that the bound was too low. A higher bound never changes an answer that is there.
-/

namespace Treewalk

structure State where
  env : Environment := .empty
  out : Sink := {}

/-- How a run ended: in an error or not, and where it left everything. -/
structure Ending where
  error : Option RuntimeError
  state : State

namespace State

def done (st : State) : Ending := ⟨none, st⟩

/-- Evaluates an expression and goes on with its value. -/
@[inline] def evaluating (st : State) (e : Expr) (next : Value → State → Option Ending) :
    Option Ending :=
  let x := e.eval st.env
  match x.result with
  | .ok v => next v { st with env := x.env }
  | .error error => some ⟨some error, { st with env := x.env }⟩

def define (name : Token) (v : Value) (st : State) : State :=
  { st with env := st.env.define name.lexeme v }

/-- Shows a value. A refused write is an error at the keyword. -/
def shown (keyword : Token) (v : Value) (st : State) : Ending :=
  let (refused, out) := st.out.writeLine v.display
  ⟨refused.map fun reason => ⟨keyword, .output reason⟩, { st with out }⟩

def enter (st : State) : State := { st with env := st.env.push }

end State

/-- Leaves a block, in an error or not. -/
def Ending.leave (ending : Ending) : Ending :=
  { ending with state := { ending.state with env := ending.state.env.pop } }

/-- In order, up to the first that ends in an error. -/
def runAll (run : Stmt → State → Option Ending) : List Stmt → State → Option Ending
  | [], st => some st.done
  | s :: body, st =>
    match run s st with
    | some ⟨none, st⟩ => runAll run body st
    | ending => ending

namespace Stmt

def exec : Nat → Stmt → State → Option Ending
  | 0, _, _ => none
  | n + 1, s, st =>
    match s with
    | expression e => st.evaluating e fun _ st => some st.done
    | print keyword e => st.evaluating e fun v st => some (st.shown keyword v)
    | declare name none => some (st.define name .nil).done
    | declare name (some e) => st.evaluating e fun v st => some (st.define name v).done
    | block body => (runAll (exec n) body st.enter).map Ending.leave
    | ifThen condition yes =>
      st.evaluating condition fun v st => if v.truthy then exec n yes st else some st.done
    | ifElse condition yes no =>
      st.evaluating condition fun v st => if v.truthy then exec n yes st else exec n no st
    | loop condition body =>
      st.evaluating condition fun v st =>
        if v.truthy then
          match exec n body st with
          | some ⟨none, st⟩ => exec n (loop condition body) st
          | ending => ending
        else some st.done

end Stmt

/-- Runs a list of statements. -/
def interpret (bound : Nat) (statements : List Stmt) (st : State) : Option Ending :=
  runAll (Stmt.exec bound) statements st

end Treewalk
