import Mathlib.Data.List.Sort
import Treewalk.Diagnostic.Render
import Treewalk.Proofs.Source.Columns

/-!
# Lines that are shown

A diagnostic shows the lines that its labels touch, each once and in order. Each of them is a line
of the source with a label below it, so none is left out when the rows are written.
-/

namespace Treewalk

open Source

theorem nodup_eraseDups {α : Type} [BEq α] [LawfulBEq α] : ∀ l : List α, l.eraseDups.Nodup
  | [] => .nil
  | a :: l => by
    rw [List.eraseDups_cons, List.nodup_cons, List.mem_eraseDups]
    exact ⟨by simp, nodup_eraseDups _⟩
termination_by l => l.length
decreasing_by exact Nat.lt_succ_of_le (List.length_filter_le _ l)

namespace View

def inColor (color : Bool) (text : List Char) (file : String) : View := { text, file, color }

@[simp]
theorem text_inColor (color : Bool) (text : List Char) (file : String) :
    (inColor color text file).text = text :=
  rfl

/-! ## The lines of all labels -/

section

variable {v : View} {line : Nat} {label : Label} {labels : List Label}

theorem touches_iff : v.touches line label ↔
    (v.position label.span.start).line ≤ line ∧ line ≤ (v.position label.span.last).line := by
  simp [touches]

theorem mem_linesOf : line ∈ v.linesOf label ↔ v.touches line label := by
  rw [touches_iff, linesOf, List.mem_range'_1]
  omega

theorem mem_shownLines : line ∈ v.shownLines labels ↔ ∃ label ∈ labels, v.touches line label := by
  simp [shownLines, mem_linesOf]

variable (v labels) in
theorem pairwise_shownLines : (v.shownLines labels).Pairwise (· < ·) := by
  have hsorted : (v.shownLines labels).Pairwise (· ≤ ·) := List.pairwise_mergeSort' _ _
  have hnodup : (v.shownLines labels).Nodup :=
    (List.mergeSort_perm _ _).nodup_iff.2 (nodup_eraseDups _)
  exact hsorted.imp₂ (fun _ _ => Nat.lt_of_le_of_ne) hnodup

theorem le_last_shownLines (h : line ∈ v.shownLines labels) :
    line ≤ (v.shownLines labels).getLast?.getD 1 := by
  have hlast := ((v.pairwise_shownLines labels).imp Nat.le_of_lt).rel_getLast h
  rwa [List.getLast?_eq_some_getLast (List.ne_nil_of_mem h)]

end

/-! ## Lines of the source -/

theorem line_position_mono (v : View) {a b : Nat} (h : a ≤ b) :
    (v.position a).line ≤ (v.position b).line := by
  refine List.countP_mono_left fun start _ hstart => ?_
  rw [decide_eq_true_iff] at hstart ⊢
  omega

theorem touches_start (v : View) (label : Label) :
    v.touches (v.position label.span.start).line label :=
  touches_iff.2 ⟨Nat.le_refl _, v.line_position_mono (Nat.le_max_right _ _)⟩

section

variable {color : Bool} {text : List Char} {file : String} {line : Nat}

variable (color text file) in
theorem line_position_pos (offset : Nat) :
    1 ≤ ((inColor color text file).position offset).line := by
  change 1 ≤ (0 :: startsFrom 0 text).countP (· ≤ min offset (byteLength text))
  rw [List.countP_cons_of_pos (by simp)]
  exact Nat.le_add_left 1 _

variable (color text file) in
theorem line_position_le (offset : Nat) :
    ((inColor color text file).position offset).line ≤ text.count '\n' + 1 := by
  rw [← length_starts text]
  exact List.countP_le_length

theorem le_of_touches {label : Label} (h : (inColor color text file).touches line label) :
    1 ≤ line ∧ line ≤ text.count '\n' + 1 := by
  obtain ⟨hfirst, hlast⟩ := touches_iff.1 h
  exact ⟨Nat.le_trans (line_position_pos color text file _) hfirst,
    Nat.le_trans hlast (line_position_le color text file _)⟩

theorem lineText?_eq (hpos : 1 ≤ line) (hle : line ≤ text.count '\n' + 1) :
    (inColor color text file).lineText? line = some (shownLine text line) := by
  obtain ⟨head, body, tail, h⟩ := exists_isLine_of_le hpos hle
  have hline : (body ++ tail).takeWhile (· ≠ '\n') = body := by
    have hwhole : ∀ c ∈ body, c ≠ '\n' := fun c hc hnewline => h.whole (hnewline ▸ hc)
    rw [List.takeWhile_append_of_pos (by simpa using hwhole)]
    cases tail with
    | nil => simp
    | cons c tail => simp [h.stops c rfl]
  have hstart : (inColor color text file).lines.start? line = some (byteLength head) := h.start?_eq
  have hdrop : dropBytes? (byteLength head) (inColor color text file).text =
      some (body ++ tail) := by
    show dropBytes? (byteLength head) text = _
    rw [h.text_eq, dropBytes?_append]
  rw [lineText?, hstart, Option.bind_eq_bind, Option.bind_some, hdrop, Option.bind_eq_bind,
    Option.bind_some, hline, shownLine, h.lineOf_eq]
  rfl

end

/-! ## Rows of a line -/

section

variable {v : View} {labels : List Label} {line : Nat}

theorem mem_underlines {mark : Underline} : mark ∈ v.underlines labels line ↔
    ∃ label ∈ labels, v.touches line label ∧ v.underline line label = mark := by
  simp [underlines, and_assoc]

theorem underlines_ne_nil {label : Label} (hlabel : label ∈ labels)
    (h : v.touches line label) : v.underlines labels line ≠ [] :=
  List.ne_nil_of_mem (mem_underlines.2 ⟨label, hlabel, h, rfl⟩)

end

theorem lineRows_eq {color : Bool} {text : List Char} {file : String} {labels : List Label}
    {line : Nat} (h : line ∈ (inColor color text file).shownLines labels) (width : Nat) :
    (inColor color text file).lineRows labels width line =
      let v := inColor color text file
      let marks := v.underlines labels line
      v.sourceRow width line (shownLine text line) :: v.caretRow width marks ::
        (marks.filter (·.message ≠ "")).map (v.messageRow width) := by
  obtain ⟨label, hlabel, htouches⟩ := mem_shownLines.1 h
  obtain ⟨hpos, hle⟩ := le_of_touches htouches
  have hmarks : ((inColor color text file).underlines labels line).isEmpty = false :=
    List.isEmpty_eq_false_iff.2 (underlines_ne_nil hlabel htouches)
  rw [lineRows, lineText?_eq hpos hle]
  simp only [hmarks, Bool.false_eq_true, if_false]

end View

end Treewalk
