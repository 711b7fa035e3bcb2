import Treewalk.Diagnostic

/-!
# Reporters

A reporter is told of every error as it is found, and of what a run is about to do. It says what it
makes of that, and has no say in the run.
-/

namespace Treewalk

/-- How one who keeps a log of type `ρ` takes what it is told. -/
structure Reporter (ρ : Type) where
  syntaxError : ρ → SyntaxError → ρ
  runtimeError : ρ → RuntimeError → ρ
  /-- Progress, which most reporters have no use for. -/
  trace : ρ → String → ρ := fun log _ => log

/-- The errors themselves, each kind in order. -/
structure ErrorLog where
  syntaxErrors : List SyntaxError := []
  runtimeErrors : List RuntimeError := []

namespace ErrorLog

def reporter : Reporter ErrorLog where
  syntaxError log e := { log with syntaxErrors := log.syntaxErrors ++ [e] }
  runtimeError log e := { log with runtimeErrors := log.runtimeErrors ++ [e] }

def diagnostics (log : ErrorLog) : List Diagnostic :=
  log.syntaxErrors.map (·.diagnostic) ++ log.runtimeErrors.map (·.diagnostic)

end ErrorLog

/-- What is to be shown: a diagnostic for each error as it comes, and the progress on request. -/
structure DiagnosticLog where
  diagnostics : List Diagnostic := []
  progress : List String := []

namespace DiagnosticLog

def add (log : DiagnosticLog) (d : Diagnostic) : DiagnosticLog :=
  { log with diagnostics := log.diagnostics ++ [d] }

def reporter (verbose : Bool) : Reporter DiagnosticLog where
  syntaxError log e := log.add e.diagnostic
  runtimeError log e := log.add e.diagnostic
  trace log message := if verbose then { log with progress := log.progress ++ [message] } else log

end DiagnosticLog

end Treewalk
