import Treewalk.Proofs.Diagnostic.Colors

/-!
# Diagnostics without colours

The whole text of a diagnostic that is shown without colours: its message, the place of its first
label, the lines that its labels touch with what stands below each of them, and its notes.
-/

namespace Treewalk

open Source

/-- The columns of the line numbers up to `last`. -/
def gutter (last : Nat) : Nat := (toString last).length + 1

theorem length_padLeft_gutter {line last : Nat} (h : line ≤ last) :
    (padLeft (gutter last) (toString line)).length = gutter last := by
  have hdigits : (toString line).length ≤ (toString last).length := by
    rw [Nat.toString_eq_repr, Nat.toString_eq_repr, Nat.length_repr_le_iff Nat.length_repr_pos]
    exact Nat.lt_of_le_of_lt h ((Nat.length_repr_le_iff Nat.length_repr_pos).1 (Nat.le_refl _))
  rw [length_padLeft, gutter]
  omega

/-- A line with its number, a row of carets, and what the labels say. -/
def quotedLine (v : View) (labels : List Label) (width : Nat) (carets : List Char) (line : Nat) :
    List String :=
  [padLeft width (toString line) ++ " | " ++ .ofList (shownLine v.text line),
    blanks width ++ " | " ++ .ofList carets] ++
    ((v.underlines labels line).filter (·.message ≠ "")).map fun mark =>
      blanks width ++ " | " ++ blanks (mark.first - 1) ++ mark.message

/-- The place of the first label, and these lines with their carets. Without a label there is
nothing to quote. -/
def quotation (v : View) (labels : List Label) (lines : List Nat) (carets : Nat → List Char) :
    List String :=
  match labels with
  | [] => []
  | first :: _ =>
    let place := v.position first.span.start
    let width := gutter (lines.getLast?.getD 1)
    ["  --> " ++ v.file ++ s!":{place.line}:{place.column}", blanks width ++ " |"] ++
      lines.flatMap (fun line => quotedLine v labels width (carets line) line) ++
      [blanks width ++ " |"]

namespace View

/-- A view without colours. -/
abbrev plain (text : List Char) (file : String) : View := inColor false text file

variable {text : List Char} {file : String}

theorem paint_plain (code s : String) : (plain text file).paint code s = s := rfl

theorem marginRow_plain (width : Nat) (content : String) :
    (plain text file).marginRow width (" " ++ content) = blanks width ++ " | " ++ content := by
  rw [← String.toList_inj]
  simp [marginRow, blue, paint_plain]

theorem marginRow_empty (width : Nat) :
    (plain text file).marginRow width "" = blanks width ++ " |" := by
  rw [← String.toList_inj]
  simp [marginRow, blue, paint_plain]

theorem noteRow_plain : (plain text file).noteRow = ("  = " ++ ·) := by
  funext note
  rw [← String.toList_inj]
  simp [noteRow, blue, paint_plain]

theorem sourceRow_plain (width line : Nat) (shown : List Char) :
    (plain text file).sourceRow width line shown =
      padLeft width (toString line) ++ " | " ++ .ofList shown := by
  rw [← String.toList_inj]
  simp [sourceRow, blue, paint_plain]

theorem caretRow_plain (width : Nat) (marks : List Underline) :
    (plain text file).caretRow width marks =
      blanks width ++ " | " ++ .ofList (Underline.carets 1 marks) :=
  marginRow_plain width _

theorem messageRow_plain (width : Nat) (mark : Underline) :
    (plain text file).messageRow width mark =
      blanks width ++ " | " ++ blanks (mark.first - 1) ++ mark.message := by
  rw [messageRow, String.append_assoc, marginRow_plain, ← String.append_assoc]
  rfl

theorem headerRow_plain (d : Diagnostic) : (plain text file).headerRow d = d.display := by
  unfold headerRow Diagnostic.display
  cases d.code with
  | none => rfl
  | some code =>
    rw [← String.toList_inj]
    simp [boldRed, bold, paint_plain]

/-- The carets that are drawn below a line. -/
def caretsBelow (v : View) (labels : List Label) (line : Nat) : List Char :=
  Underline.carets 1 (v.underlines labels line)

theorem lineRows_plain {labels : List Label} {line : Nat}
    (h : line ∈ (plain text file).shownLines labels) (width : Nat) :
    (plain text file).lineRows labels width line =
      quotedLine (plain text file) labels width ((plain text file).caretsBelow labels line)
        line := by
  have hmessages : (plain text file).messageRow width = fun mark =>
      blanks width ++ " | " ++ blanks (mark.first - 1) ++ mark.message :=
    funext (messageRow_plain width)
  rw [lineRows_eq h]
  simp only [sourceRow_plain, caretRow_plain, hmessages]
  rfl

theorem render_plain (d : Diagnostic) : (plain text file).render d = unlines
    (d.display :: quotation (plain text file) d.labels ((plain text file).shownLines d.labels)
        ((plain text file).caretsBelow d.labels) ++ d.notes.map ("  = " ++ ·)) := by
  have hsource : (plain text file).sourceRows d.labels = quotation (plain text file) d.labels
      ((plain text file).shownLines d.labels) ((plain text file).caretsBelow d.labels) := by
    cases d.labels with
    | nil => rfl
    | cons first more =>
      rw [sourceRows, quotation]
      simp only [marginRow_empty, List.flatMap_congr fun line hline => lineRows_plain hline _]
      rfl
  rw [render, rows, headerRow_plain, noteRow_plain, hsource]

end View

end Treewalk
