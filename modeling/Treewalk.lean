import Treewalk.Main
import Treewalk.Syntax.Nesting
import Treewalk.Syntax.Reader
import Treewalk.Proofs.Syntax.Expressions
import Treewalk.Proofs.Syntax.Statements
import Treewalk.Proofs.Lexeme.Classes
import Treewalk.Proofs.Lexeme.Decomposition
import Treewalk.Proofs.Syntax.Relocation
import Treewalk.Proofs.Eval.Running
import Treewalk.Proofs.Lexeme.Joining
import Treewalk.Proofs.Session.Pieces
import Treewalk.Proofs.Number.Bits
import Treewalk.Proofs.Number.RoundTrip
import Treewalk.Proofs.Number.Values
import Treewalk.Proofs.Syntax.PrefixForm
import Treewalk.Proofs.Lexeme.Delimited
import Treewalk.Proofs.Syntax.ReadBack
import Treewalk.Proofs.Syntax.Built
import Treewalk.Proofs.Eval.Frames
import Treewalk.Proofs.Eval.Scopes
import Treewalk.Proofs.Eval.Dispatch
import Treewalk.Proofs.Session.Reports
import Treewalk.Proofs.Syntax.Layout
import Treewalk.Proofs.Session.Layout
import Treewalk.Proofs.Lexeme.Places
import Treewalk.Proofs.Session.Places
import Treewalk.Proofs.Eval.Repetition
import Treewalk.Proofs.Eval.Adequacy
import Treewalk.Proofs.Eval.Machine
import Treewalk.Proofs.Eval.Refusal
import Treewalk.Proofs.Syntax.Earliest
import Treewalk.Proofs.Eval.Histories
import Treewalk.Proofs.Eval.Output
import Treewalk.Proofs.Diagnostic.Colors
import Treewalk.Proofs.Cli.Scripts
import Treewalk.Proofs.Cli.Conversation
import Treewalk.Proofs.Lexeme.Accounts
import Treewalk.Proofs.Lexeme.Blanking
import Treewalk.Proofs.Source.Columns
import Treewalk.Proofs.Diagnostic.Underlines
import Treewalk.Proofs.Diagnostic.Overlaps
import Treewalk.Proofs.Session.Rendered
import Treewalk.Proofs.Syntax.Progress
import Treewalk.Proofs.Syntax.Whole
import Treewalk.Proofs.Syntax.Trail
import Treewalk.Proofs.Syntax.SourceOrder
import Treewalk.Proofs.Syntax.PrefixLanguage
import Treewalk.Proofs.Syntax.StatementForms
import Treewalk.Proofs.Number.Nearest
import Treewalk.Proofs.Number.Shown
import Treewalk.Proofs.Source.Lookup
import Treewalk.Proofs.Syntax.Termination
import Treewalk.Proofs.Syntax.Recovery
import Treewalk.Proofs.Json.Reader
import Treewalk.Proofs.Json.Numbers
import Treewalk.Proofs.Cli.TokenLines
