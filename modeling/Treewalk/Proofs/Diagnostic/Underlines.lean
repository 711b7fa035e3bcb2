import Treewalk.Proofs.Diagnostic.Plain

/-!
# Underlined text

A diagnostic with one label shows the lines of its span, each with carets below it. The carets end
at the column of the last byte of the span, and a byte inside a character has no column but the
first. So the carets are right if the last character of the span is a single byte.
-/

namespace Treewalk

open Source

/-! ## An excerpt -/

/-- Carets from the first column on. -/
def Underline.row (u : Underline) : List Char :=
  List.replicate (u.first - 1) ' ' ++ List.replicate (u.stop - u.first) '^'

/-- A line, its carets, and what they are to say. -/
def markedLine (text : List Char) (width line : Nat) (mark : Underline) : List String :=
  [padLeft width (toString line) ++ " | " ++ .ofList (shownLine text line),
    blanks width ++ " | " ++ .ofList mark.row] ++
    if mark.message = "" then []
    else [blanks width ++ " | " ++ blanks (mark.first - 1) ++ mark.message]

/-- The lines from a place up to line `last`, each with its mark. -/
def excerpt (text : List Char) (file : String) (place : Position) (last : Nat)
    (mark : Nat → Underline) : List String :=
  let edge := blanks (gutter last) ++ " |"
  ["  --> " ++ file ++ s!":{place.line}:{place.column}", edge] ++
    (List.range' place.line (last + 1 - place.line)).flatMap (fun line =>
      markedLine text (gutter last) line (mark line)) ++
    [edge]

/-- A diagnostic, with an excerpt between its message and its notes. -/
def Diagnostic.picture (d : Diagnostic) (text : List Char) (file : String) (place : Position)
    (last : Nat) (mark : Nat → Underline) : String :=
  View.unlines (d.display :: excerpt text file place last mark ++ d.notes.map ("  = " ++ ·))

theorem Span.last_eq (s : Span) : s.last = if s.isEmpty then s.start else s.stop - 1 := by
  simp only [last, isEmpty, decide_eq_true_eq]
  unfold length
  split <;> omega

theorem Underline.carets_singleton {u : Underline} (h : 1 ≤ u.first) : carets 1 [u] = u.row := by
  rw [carets, carets, List.append_nil, Nat.max_eq_right h, row]

theorem Underline.getElem?_row {u : Underline} (h : 1 ≤ u.first) (i : Nat) :
    u.row[i]? = some '^' ↔ u.first ≤ i + 1 ∧ i + 1 < u.stop := by
  rw [row, List.getElem?_append, List.length_replicate]
  split
  · next hi =>
    simp only [List.getElem?_replicate, if_pos hi]
    simp
    omega
  · next hi =>
    simp only [List.getElem?_replicate]
    simp
    omega

theorem Diagnostic.picture_congr {text : List Char} {file : String} {place : Position} {last : Nat}
    {mark mark' : Nat → Underline}
    (h : ∀ line, place.line ≤ line → line ≤ last → mark line = mark' line) (d : Diagnostic) :
    d.picture text file place last mark = d.picture text file place last mark' := by
  have hlines : ∀ line ∈ List.range' place.line (last + 1 - place.line),
      markedLine text (gutter last) line (mark line) =
        markedLine text (gutter last) line (mark' line) := by
    intro line hline
    rw [List.mem_range'_1] at hline
    rw [h line hline.1 (by omega)]
  rw [picture, picture, excerpt, excerpt, List.flatMap_congr hlines]

/-! ## Diagnostics with one label -/

namespace View

section

variable {text : List Char} {file : String}

theorem lineText_eq {line : Nat} (hpos : 1 ≤ line) (hle : line ≤ text.count '\n' + 1) :
    (plain text file).lineText line = shownLine text line := by
  rw [lineText, lineText?_eq hpos hle, Option.getD_some]

theorem line_position {p : Nat} (h : p ≤ byteLength text) :
    ((plain text file).position p).line = 1 + newlinesBefore p text := by
  have hline : ((plain text file).position p).line =
      (LineTable.ofText text).line (min p (byteLength text)) := rfl
  rw [hline, Nat.min_eq_left h, line_ofText]

variable (text file) in
theorem shownLines_singleton (label : Label) : (plain text file).shownLines [label] =
    List.range' ((plain text file).position label.span.start).line
      (((plain text file).position label.span.last).line + 1 -
        ((plain text file).position label.span.start).line) := by
  refine List.SortedLT.eq_of_mem_iff (pairwise_shownLines _ _).sortedLT
    (List.pairwise_lt_range' _).sortedLT fun line => ?_
  have hlines : line ∈ (plain text file).linesOf label ↔ _ := mem_linesOf
  rw [mem_shownLines, ← linesOf, hlines]
  simp

theorem one_le_first (line : Nat) (label : Label) :
    1 ≤ ((plain text file).underline line label).first := by
  unfold underline
  dsimp only
  split
  · exact Nat.le_add_left 1 _
  · exact Nat.le_refl 1

theorem quotedLine_singleton {label : Label} {line : Nat}
    (h : (plain text file).touches line label) (width : Nat) :
    quotedLine (plain text file) [label] width ((plain text file).caretsBelow [label] line) line =
      markedLine text width line ((plain text file).underline line label) := by
  have hmarks : (plain text file).underlines [label] line =
      [(plain text file).underline line label] := by
    simp [underlines, h]
  rw [quotedLine, caretsBelow, hmarks, Underline.carets_singleton (one_le_first line label),
    markedLine]
  by_cases hmessage : ((plain text file).underline line label).message = "" <;> simp [hmessage]

theorem render_of_label {d : Diagnostic} {label : Label} (h : d.labels = [label]) :
    (plain text file).render d =
      d.picture text file ((plain text file).position label.span.start)
        ((plain text file).position label.span.last).line
        (fun line => (plain text file).underline line label) := by
  have hle : ((plain text file).position label.span.start).line ≤
      ((plain text file).position label.span.last).line :=
    line_position_mono _ (Nat.le_max_right _ _)
  have hlast : ((plain text file).shownLines [label]).getLast?.getD 1 =
      ((plain text file).position label.span.last).line := by
    rw [shownLines_singleton, List.getLast?_range', if_neg (by omega), Option.getD_some]
    omega
  have hlines : ∀ line ∈ (plain text file).shownLines [label],
      quotedLine (plain text file) [label]
        (gutter ((plain text file).position label.span.last).line)
        ((plain text file).caretsBelow [label] line) line =
      markedLine text (gutter ((plain text file).position label.span.last).line) line
        ((plain text file).underline line label) := by
    intro line hline
    obtain ⟨_, hmem, htouches⟩ := mem_shownLines.1 hline
    obtain rfl := List.mem_singleton.1 hmem
    exact quotedLine_singleton htouches _
  rw [render_plain, h, quotation]
  simp only [hlast]
  rw [List.flatMap_congr hlines, shownLines_singleton]
  rfl

end

/-! ## Carets under a span -/

theorem position_start {text front rest : List Char} {file : String} {span : Span}
    (htext : text = front ++ rest) (hstart : span.start = byteLength front) :
    (plain text file).position span.start = .after front := by
  rw [hstart]
  exact position_after htext

section

variable {text front init back : List Char} {c : Char} {label : Label} {file : String}
  (htext : text = front ++ (init ++ c :: back))
  (hspan : label.span = ⟨byteLength front, byteLength (front ++ init) + c.utf8Size⟩)
include hspan

theorem isEmpty_span : label.span.isEmpty = false := by
  have hsize := c.utf8Size_pos
  rw [hspan, byteLength_append, Span.isEmpty, Span.length, decide_eq_false_iff_not]
  dsimp only
  omega

include htext

theorem position_last : (plain text file).position label.span.last =
    ⟨(Position.after (front ++ init)).line,
      if c.utf8Size = 1 then (Position.after (front ++ init)).column else 1⟩ := by
  have hlast : label.span.last = byteLength (front ++ init) + c.utf8Size - 1 := by
    rw [Span.last_eq, isEmpty_span hspan, hspan]
    rfl
  rw [hlast]
  exact position_last_byte (by rw [htext, List.append_assoc])

theorem underline_eq {line : Nat} (hfirst : (Position.after front).line ≤ line)
    (hlast : line ≤ (Position.after (front ++ init)).line) :
    (plain text file).underline line label =
      let first := if (Position.after front).line = line then (Position.after front).column else 1
      let stop :=
        if (Position.after (front ++ init)).line ≠ line then (shownLine text line).length + 1
        else if c.utf8Size = 1 then (Position.after (front ++ init)).column + 1
        else 2
      ⟨first, max stop (first + 1), label.message⟩ := by
  have hpos : 1 ≤ line := Nat.le_trans (Nat.le_add_left 1 _) hfirst
  have hle : line ≤ text.count '\n' + 1 :=
    Nat.le_trans hlast (Position.line_after_le (htext.trans (List.append_assoc ..).symm))
  rw [underline, position_start htext (by rw [hspan]), position_last htext hspan,
    lineText_eq hpos hle, isEmpty_span hspan]
  by_cases hone : c.utf8Size = 1 <;> simp [hone]

end

end View

/-- A label without a newline is shown with its line. There is a caret for each of its characters if
the last one is a single byte, and else there is one caret. -/
theorem one_line_label_rendered {before text after : List Char} {file message : String}
    {d : Diagnostic} (htext : text ≠ []) (hline : '\n' ∉ text)
    (hlabels : d.labels = [⟨⟨byteLength before, byteLength (before ++ text)⟩, message⟩]) :
    let place := Position.after before
    let carets := if (text.getLast htext).utf8Size = 1 then text.length else 1
    View.render { text := before ++ text ++ after, file, color := false } d =
      d.picture (before ++ text ++ after) file place place.line
        (fun _ => ⟨place.column, place.column + carets, message⟩) ∧
    (carets = text.length ↔ text.length = 1 ∨ (text.getLast htext).utf8Size = 1) := by
  intro place carets
  obtain ⟨init, c, rfl⟩ : ∃ init c, text = init ++ [c] :=
    ⟨_, _, (List.dropLast_append_getLast htext).symm⟩
  obtain ⟨hinit, -⟩ := not_or.1 (mt List.mem_append.2 hline)
  have hsource : before ++ (init ++ [c]) ++ after = before ++ (init ++ c :: after) := by simp
  have hspan : (⟨byteLength before, byteLength (before ++ (init ++ [c]))⟩ : Span) =
      ⟨byteLength before, byteLength (before ++ init) + c.utf8Size⟩ := by
    simp [Nat.add_assoc]
  rw [hspan] at hlabels
  have hend := Position.after_append before hinit
  constructor
  · rw [hsource]
    refine (View.render_of_label hlabels).trans ?_
    rw [View.position_start rfl rfl, View.position_last rfl rfl, hend]
    refine Diagnostic.picture_congr (fun line hfirst hlast => ?_) d
    obtain rfl : (Position.after before).line = line := Nat.le_antisymm hfirst hlast
    rw [View.underline_eq rfl rfl hfirst (by rw [hend]), hend]
    by_cases hone : c.utf8Size = 1
    · simp [place, carets, hone, Nat.add_assoc]
    · simp [place, carets, hone, Position.after]
  · by_cases hone : c.utf8Size = 1 <;> simp [carets, hone]

theorem one_line_label_rendered_two_carets :
    let d : Diagnostic := { message := "m", labels := [⟨⟨3, 6⟩, "here"⟩] }
    View.render { text := "é(éa)".toList, file := "f", color := false } d =
      "error: m\n  --> f:1:3\n   |\n 1 | é(éa)\n   |   ^^\n   |   here\n   |\n" := by
  intro d
  have hrendered := @one_line_label_rendered "é(".toList "éa".toList ")".toList "f" "here" d
    (by decide) (by decide) rfl
  exact hrendered.1.trans (by decide +kernel)

/-- If the last character has two bytes, the others have no caret. -/
theorem last_character_hides_carets : ¬ ∀ (before text after : List Char) (file message : String)
    (d : Diagnostic), text ≠ [] → '\n' ∉ text → '\r' ∉ text →
    d.labels = [⟨⟨byteLength before, byteLength (before ++ text)⟩, message⟩] →
    let place := Position.after before
    View.render { text := before ++ text ++ after, file, color := false } d =
      d.picture (before ++ text ++ after) file place place.line
        (fun _ => ⟨place.column, place.column + text.length, message⟩) := by
  intro h
  have htwo := h [] "éé".toList [] "f" "" { message := "m", labels := [⟨⟨0, 4⟩, ""⟩] } (by decide)
    (by decide) (by decide) rfl
  revert htwo
  decide +kernel

end Treewalk
