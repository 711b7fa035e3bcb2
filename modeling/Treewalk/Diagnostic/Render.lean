import Treewalk.Diagnostic
import Treewalk.Source.Lines

/-!
# Diagnostics against the source

Each line that a label touches is shown with its number. Below it, carets mark the columns of all
labels, and then each label says its message.
-/

namespace Treewalk

open Source

/-- A source text to show diagnostics against. -/
structure View where
  text : List Char
  file : String
  color : Bool
  lines : LineTable := .ofText text

/-- Columns of one row, from `first` up to and without `stop`. -/
structure Underline where
  first : Nat
  stop : Nat
  message : String
deriving Repr

namespace Underline

/-- The carets of all underlines, with blanks between them, from column `column` on. The
underlines come in order of their first columns and may overlap. -/
def carets (column : Nat) : List Underline → List Char
  | [] => []
  | u :: more =>
    let first := max column u.first
    List.replicate (u.first - column) ' ' ++ List.replicate (u.stop - first) '^' ++
      carets (max first u.stop) more

end Underline

/-- The offset of the last byte. An empty span has it at its start. -/
def Span.last (s : Span) : Nat := max (s.stop - 1) s.start

def blanks (n : Nat) : String := .ofList (List.replicate n ' ')

/-- Blanks before a text, up to a width. -/
def padLeft (width : Nat) (s : String) : String := blanks (width - s.length) ++ s

namespace View

/-! ## Colours -/

def paint (v : View) (code text : String) : String :=
  if v.color then "\x1b[" ++ code ++ "m" ++ text ++ "\x1b[0m" else text

def red (v : View) : String → String := v.paint "31"

def boldRed (v : View) : String → String := v.paint "1;31"

def blue (v : View) : String → String := v.paint "34"

def bold (v : View) : String → String := v.paint "1"

/-! ## Lines and labels -/

def position (v : View) (offset : Nat) : Position := v.lines.position v.text offset

/-- A line without its newline and the carriage returns before it, if there is such a line. -/
def lineText? (v : View) (line : Nat) : Option (List Char) := do
  let start ← v.lines.start? line
  let rest ← dropBytes? start v.text
  let content := rest.takeWhile (· ≠ '\n')
  pure (content.reverse.dropWhile (· = '\r')).reverse

def lineText (v : View) (line : Nat) : List Char := (v.lineText? line).getD []

/-- The lines from the start of a label to its last byte. -/
def linesOf (v : View) (label : Label) : List Nat :=
  let first := (v.position label.span.start).line
  let last := (v.position label.span.last).line
  List.range' first (last + 1 - first)

/-- The lines of all labels, each once and in order. -/
def shownLines (v : View) (labels : List Label) : List Nat :=
  (labels.flatMap v.linesOf).eraseDups.mergeSort

def touches (v : View) (line : Nat) (label : Label) : Bool :=
  (v.position label.span.start).line ≤ line && line ≤ (v.position label.span.last).line

/-- The columns of a label on a line that it touches. At least one column is underlined. -/
def underline (v : View) (line : Nat) (label : Label) : Underline :=
  let start := v.position label.span.start
  let last := v.position label.span.last
  let first := if start.line = line then start.column else 1
  let stop :=
    if last.line ≠ line then (v.lineText line).length + 1
    else if label.span.isEmpty then start.column + 1
    else last.column + 1
  ⟨first, max stop (first + 1), label.message⟩

/-- The underlines of a line in order of their first columns. -/
def underlines (v : View) (labels : List Label) (line : Nat) : List Underline :=
  ((labels.filter (v.touches line)).map (v.underline line)).mergeSort
    fun a b => a.first ≤ b.first

/-! ## Rows -/

/-- A row of a margin of `width` columns without a line number. -/
def marginRow (v : View) (width : Nat) (content : String) : String :=
  blanks width ++ " " ++ v.blue "|" ++ content

/-- A line with its number. A number in colour is not padded. -/
def sourceRow (v : View) (width line : Nat) (text : List Char) : String :=
  padLeft width (v.blue (toString line)) ++ " " ++ v.blue "|" ++ " " ++ .ofList text

def caretRow (v : View) (width : Nat) (marks : List Underline) : String :=
  v.marginRow width (" " ++ v.red (.ofList (Underline.carets 1 marks)))

def messageRow (v : View) (width : Nat) (mark : Underline) : String :=
  v.marginRow width (" " ++ blanks (mark.first - 1) ++ v.red mark.message)

/-- A source line, its carets, and the messages of its labels. -/
def lineRows (v : View) (labels : List Label) (width line : Nat) : List String :=
  match v.lineText? line with
  | none => []
  | some text =>
    let marks := v.underlines labels line
    let below := if marks.isEmpty then [] else
      v.caretRow width marks :: (marks.filter (·.message ≠ "")).map (v.messageRow width)
    v.sourceRow width line text :: below

/-- The place of the first label, and every line that a label touches. -/
def sourceRows (v : View) (labels : List Label) : List String :=
  match labels with
  | [] => []
  | first :: _ =>
    let place := v.position first.span.start
    let shown := v.shownLines labels
    let width := (toString (shown.getLast?.getD 1)).length + 1
    let arrow := "  " ++ v.blue "-->" ++ " " ++ v.file ++ s!":{place.line}:{place.column}"
    [arrow, v.marginRow width ""] ++ shown.flatMap (v.lineRows labels width) ++
      [v.marginRow width ""]

def headerRow (v : View) (d : Diagnostic) : String :=
  let code := match d.code with
    | some code => "[" ++ code ++ "]"
    | none => ""
  v.boldRed "error" ++ code ++ ": " ++ v.bold d.message

def noteRow (v : View) (note : String) : String := "  " ++ v.blue "=" ++ " " ++ note

def rows (v : View) (d : Diagnostic) : List String :=
  v.headerRow d :: v.sourceRows d.labels ++ d.notes.map v.noteRow

def unlines (rows : List String) : String := String.join (rows.map (· ++ "\n"))

def render (v : View) (d : Diagnostic) : String := unlines (v.rows d)

/-- All diagnostics, and how many there are. -/
def renderAll (v : View) (ds : List Diagnostic) : String :=
  let each := String.join (ds.map fun d => v.render d ++ "\n")
  match ds.length with
  | 0 => each
  | 1 => each ++ v.boldRed "error" ++ ": aborting due to 1 error\n"
  | n => each ++ v.boldRed "error" ++ s!": aborting due to {n} errors\n"

end View

end Treewalk
