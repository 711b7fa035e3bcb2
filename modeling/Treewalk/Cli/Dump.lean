import Treewalk.Cli.Options
import Treewalk.Diagnostic
import Treewalk.Syntax.Parser
import Treewalk.Syntax.Printer
import Treewalk.Text.Json
import Treewalk.Token.Scan

/-!
# Showing a stage instead of running
-/

namespace Treewalk

open Text

def Literal.json : Option Literal → String
  | some (.number x) => Json.number x
  | some (.string s) => Json.string s
  | none => "null"

/-- A token as a JSON object on one line. -/
def Token.json (t : Token) : String :=
  Json.object
    [("kind", Json.string t.kind.name),
      ("lexeme", Json.string t.lexeme),
      ("line", toString t.line),
      ("literal", Literal.json t.literal),
      ("span", s!"[{t.span.start},{t.span.stop}]")]

namespace Cli

/-- The lines that are shown, what they are, and the errors met on the way. -/
structure Dump where
  lines : List String
  what : String
  errors : List SyntaxError

def Dump.of (stage : DumpStage) (json : Bool) (source : String) : Dump :=
  let scanned := scan source
  match stage with
  | .tokens =>
    { lines := scanned.tokens.map fun t => if json then t.json else t.listing
      what := "tokens"
      errors := scanned.errors }
  | .tree =>
    let parsed := parse scanned.tokens
    { lines := parsed.statements.map Stmt.render
      what := "statements"
      errors := scanned.errors ++ parsed.errors }

end Cli

end Treewalk
