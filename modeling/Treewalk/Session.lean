import Treewalk.Eval.Stmt
import Treewalk.Reporter
import Treewalk.Syntax.Parser
import Treewalk.Token.Scan

/-!
# Sessions

A session runs one source after another with the same variables and the same output. A source
with a syntax error is not run at all.
-/

namespace Treewalk

inductive Status where
  | completed
  | syntaxError
  | runtimeError
deriving DecidableEq, Repr

namespace Status

def isOk (s : Status) : Bool := s = .completed

def exitCode : Status → Nat
  | completed => 0
  | syntaxError => 65
  | runtimeError => 70

def name : Status → String
  | completed => "Completed"
  | syntaxError => "SyntaxError"
  | runtimeError => "RuntimeError"

end Status

/-- What one run has to say. -/
structure Report where
  syntaxErrors : List SyntaxError := []
  runtimeError : Option RuntimeError := none
  /-- What the run did, step by step. -/
  trace : List String := []

namespace Report

/-- Keeps all that it is told. -/
def reporter : Reporter Report where
  syntaxError r e := { r with syntaxErrors := r.syntaxErrors ++ [e] }
  runtimeError r e := { r with runtimeError := some e }
  trace r message := { r with trace := r.trace ++ [message] }

def status (r : Report) : Status :=
  if !r.syntaxErrors.isEmpty then .syntaxError
  else if r.runtimeError.isSome then .runtimeError
  else .completed

def diagnostics (r : Report) : List Diagnostic :=
  r.syntaxErrors.map (·.diagnostic) ++ r.runtimeError.toList.map (·.diagnostic)

end Report

structure Session where
  state : State := {}

namespace Session

/-- Runs a source and tells the reporter as it goes. `none` if the bound was too low. -/
def runWith {ρ : Type} (reporter : Reporter ρ) (bound : Nat) (source : String) (log : ρ)
    (session : Session) : Option (Status × ρ × Session) :=
  let log := reporter.trace log s!"Scanning {source.utf8ByteSize} bytes"
  let scanned := scan source
  let log := scanned.errors.foldl reporter.syntaxError log
  let log := reporter.trace log s!"Parsing {scanned.tokens.length} tokens"
  let parsed := parse scanned.tokens
  let log := parsed.errors.foldl reporter.syntaxError log
  if scanned.isOk && parsed.isOk then
    let log := reporter.trace log s!"Interpreting {parsed.statements.length} statements"
    (interpret bound parsed.statements session.state).map fun ending =>
      match ending.error with
      | none => (.completed, log, ⟨ending.state⟩)
      | some error => (.runtimeError, reporter.runtimeError log error, ⟨ending.state⟩)
  else
    some (.syntaxError, reporter.trace log "Skipping execution due to syntax errors", session)

/-- Runs a source and gives the whole report. -/
def run (bound : Nat) (source : String) (session : Session) : Option (Report × Session) :=
  (session.runWith Report.reporter bound source {}).map fun (_, report, after) => (report, after)

end Session

/-- Any error that a source can have. -/
inductive ProgramError where
  | inSource (e : SyntaxError)
  | inRun (e : RuntimeError)

namespace ProgramError

def display : ProgramError → String
  | inSource e => e.display
  | inRun e => e.display

def diagnostic : ProgramError → Diagnostic
  | inSource e => e.diagnostic
  | inRun e => e.diagnostic

end ProgramError

/-- Runs a source in a session of its own and gives what it wrote, or its errors. -/
def runOnce (bound : Nat) (source : String) : Option (Except (List ProgramError) String) :=
  (Session.runWith ErrorLog.reporter bound source {} {}).map fun (status, log, session) =>
    if status.isOk then .ok session.state.out.contents
    else .error (log.syntaxErrors.map .inSource ++ log.runtimeErrors.map .inRun)

end Treewalk
