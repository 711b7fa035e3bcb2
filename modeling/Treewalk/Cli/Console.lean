import Treewalk.Cli.Options
import Treewalk.Diagnostic.Render

/-!
# What the program writes

Text on the two streams, in order.
-/

namespace Treewalk.Cli

structure Console where
  out : String := ""
  err : String := ""
deriving DecidableEq, Repr

namespace Console

def append (a b : Console) : Console := ⟨a.out ++ b.out, a.err ++ b.err⟩

instance : Append Console := ⟨append⟩

def none : Console := {}

def output (text : String) : Console := { out := text }

def error (text : String) : Console := { err := text }

end Console

/-- Progress messages, on request. -/
def logAll (config : Config) (messages : List String) : Console :=
  if config.verbose then .error (View.unlines (messages.map ("[aroi:debug] " ++ ·))) else .none

def log (config : Config) (message : String) : Console := logAll config [message]

/-- A message about a failure outside any source. -/
def complain (config : Config) (message : String) : Console :=
  let painted :=
    if config.color then "\x1b[1m\x1b[31m" ++ message ++ "\x1b[39m\x1b[0m" else message
  .error (painted ++ "\n")

/-- Diagnostics against their source, if there are any. -/
def showDiagnostics (config : Config) (source file : String) (ds : List Diagnostic) : Console :=
  let view : View := { text := source.toList, file, color := config.color }
  .error (view.renderAll ds)

end Treewalk.Cli
