import Treewalk.Cli.Arguments
import Treewalk.Cli.Dump
import Treewalk.Cli.Prompt

/-!
# The program

What the program writes and the code it ends with, for its arguments, its files and its input.
-/

namespace Treewalk.Cli

structure Exit where
  console : Console
  code : Nat
deriving DecidableEq, Repr

def versionText : String := "aroi 0.1.0\n"

def usageText : String := "Usage: aroi [OPTIONS] [SCRIPT]\n       aroi complete <SHELL>\n"

/-- The code for a script that cannot be read. -/
def noInputCode : Nat := 66

def usageCode : Nat := 2

/-- Reading stopped before there were options. -/
def Stop.exit : Stop → Exit
  | .help => ⟨.output usageText, 0⟩
  | .version => ⟨.output versionText, 0⟩
  | .usage _ => ⟨.error usageText, usageCode⟩

/-- Shows a stage of a source. -/
def dumpSource (config : Config) (stage : DumpStage) (file source : String) : Exit :=
  let dump := Dump.of stage config.json source
  let status := if dump.errors.isEmpty then Status.completed else .syntaxError
  { console := .output (View.unlines dump.lines) ++
      log config s!"Dumping {dump.lines.length} {dump.what}" ++
      showDiagnostics config source file (dump.errors.map (·.diagnostic))
    code := status.exitCode }

/-- Runs a script that was read, or shows a stage of it. -/
def scriptExit (bound : Nat) (config : Config) (file source : String) : Option Exit :=
  match config.dump with
  | some stage => some (dumpSource config stage file source)
  | none =>
    (runSource bound config file source {}).map fun (status, console, _) =>
      ⟨console ++ log config ("Finished with status " ++ status.name), status.exitCode⟩

/-- A script from its path and what reading the path gave. -/
def runScript (bound : Nat) (config : Config) (path : String)
    (content : Except ReadError ByteArray) : Option Exit :=
  let start := logAll config ["Starting aroi", "Reading script from file: " ++ path]
  match content.bind decode with
  | .error e =>
    some ⟨start ++ complain config ("Failed to read " ++ path ++ ": " ++ e.message), noInputCode⟩
  | .ok source =>
    let start := start ++ log config s!"Read {source.utf8ByteSize} bytes of source"
    (scriptExit bound config path source).map fun exit =>
      { exit with console := start ++ exit.console }

/-- What is written before the first prompt. -/
def promptStart (config : Config) : Console :=
  logAll config ["Starting aroi", "Entering interactive mode"]

def runPrompt (bound : Nat) (config : Config) (input : ByteArray) : Option Exit :=
  (converse bound config (splitLines input.toList) {}).map fun (console, _) =>
    ⟨promptStart config ++ console, 0⟩

/-- What the arguments ask for. -/
inductive Plan where
  /-- Nothing has to be read. -/
  | finished (exit : Exit)
  | script (config : Config) (path : String)
  | prompt (config : Config)

/-- `terminal` says whether both streams are shown on a terminal. -/
def plan (terminal : Bool) (args : List String) : Plan :=
  match parseArguments args with
  | .error stop => .finished stop.exit
  | .ok options =>
    let config := options.config terminal
    match options.completion, options.script with
    | some _, _ => .finished ⟨.none, 0⟩
    | none, some path => .script config path
    | none, none => .prompt config

/-- The whole program, away from a terminal. -/
def program (bound : Nat) (folder : Folder) (args : List String) (input : ByteArray) :
    Option Exit :=
  match plan false args with
  | .finished exit => some exit
  | .script config path => runScript bound config path (folder.read path)
  | .prompt config => runPrompt bound config input

end Treewalk.Cli
