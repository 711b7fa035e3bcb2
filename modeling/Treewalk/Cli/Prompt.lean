import Treewalk.Cli.Console
import Treewalk.Cli.Folder
import Treewalk.Session
import Treewalk.Text.WhiteSpace

/-!
# The prompt

Every line is a source of its own, run in one session. A few lines are commands.
-/

namespace Treewalk.Cli

def promptText : String := "aroi> "

inductive Command where
  | leave
  | blank
  /-- List the variables. -/
  | list
  | run
deriving DecidableEq, Repr

def Command.ofLine (line : String) : Command :=
  match String.ofList (Text.trim line.toList) with
  | "exit" | "quit" => .leave
  | "" => .blank
  | ":env" => .list
  | _ => .run

/-- The variables, one a line. -/
def listing (env : Environment) : String :=
  View.unlines (env.bindings.map fun (name, v) => name ++ " = " ++ v.display)

/-- Runs a source and shows what it wrote and what went wrong. -/
def runSource (bound : Nat) (config : Config) (file source : String) (session : Session) :
    Option (Status × Console × Session) :=
  let fresh : Session := { state := { session.state with out := {} } }
  (fresh.runWith (DiagnosticLog.reporter config.verbose) bound source {}).map
    fun (status, log, after) =>
      let console := Console.output after.state.out.contents ++ logAll config log.progress ++
        showDiagnostics config source file log.diagnostics
      (status, console, after)

/-- What a line does: what is written, and the session if the prompt comes again. -/
def turn (bound : Nat) (config : Config) (line : List UInt8) (session : Session) :
    Option (Console × Option Session) :=
  match decode ⟨line.toArray⟩ with
  | .error e => some (complain config ("Error reading input: " ++ e.message), none)
  | .ok source =>
    match Command.ofLine source with
    | .leave => some (.none, none)
    | .blank => some (.none, some session)
    | .list => some (.output (listing session.state.env), some session)
    | .run =>
      (runSource bound config "<repl>" source session).map fun (_, console, after) =>
        (console, some after)

/-- Cuts input into lines. Each keeps its newline, which the last may lack. -/
def splitLines : List UInt8 → List (List UInt8)
  | [] => []
  | b :: bytes =>
    if b = 10 then [b] :: splitLines bytes
    else
      match splitLines bytes with
      | [] => [[b]]
      | line :: lines => (b :: line) :: lines

/-- Prompts for each line, and once more when no line is left. Gives what is written, and the
session at the end. -/
def converse (bound : Nat) (config : Config) :
    List (List UInt8) → Session → Option (Console × Session)
  | [], session => some (.output promptText, session)
  | line :: lines, session => do
    let (console, next) ← turn bound config line session
    let (rest, last) ← match next with
      | some session => converse bound config lines session
      | none => some (.none, session)
    return (.output promptText ++ console ++ rest, last)

end Treewalk.Cli
