import Treewalk.Proofs.Diagnostic.Plain

/-!
# Labels that overlap

The carets of a line are drawn from left to right, one underline after the other, in the order of
their first columns. However the underlines overlap, each column is drawn once, and it has a caret
just if one of them covers it.
-/

namespace Treewalk

open Source

/-! ## Rows of carets -/

/-- The underline is over this column. -/
def Underline.Covers (u : Underline) (column : Nat) : Prop := u.first ≤ column ∧ column < u.stop

/-- What is drawn from a column on. -/
structure Drawn (covered : Nat → Prop) (column : Nat) (row : List Char) : Prop where
  /-- There is a caret in each column that is covered, and in no other. -/
  caret_iff (i : Nat) : row[i]? = some '^' ↔ covered (column + i)
  /-- In the other columns there are blanks. -/
  blank_of_not (i : Nat) : i < row.length → ¬ covered (column + i) → row[i]? = some ' '
  /-- Nothing comes after the last caret. -/
  last (i : Nat) : i + 1 = row.length → covered (column + i)

namespace Drawn

variable {covered covered' : Nat → Prop} {column : Nat} {row : List Char}

theorem nil (h : ∀ c, column ≤ c → ¬ covered c) : Drawn covered column [] where
  caret_iff i := by simpa using h (column + i) (Nat.le_add_right _ _)
  blank_of_not i hi := absurd hi (Nat.not_lt_zero i)
  last i hi := absurd hi (Nat.succ_ne_zero i)

theorem congr (h : Drawn covered column row) (hc : ∀ c, column ≤ c → (covered c ↔ covered' c)) :
    Drawn covered' column row where
  caret_iff i := (h.caret_iff i).trans (hc _ (Nat.le_add_right _ _))
  blank_of_not i hi hnot := h.blank_of_not i hi (mt (hc _ (Nat.le_add_right _ _)).1 hnot)
  last i hi := (hc _ (Nat.le_add_right _ _)).1 (h.last i hi)

theorem ne_nil (h : Drawn covered column row) {c : Nat} (hle : column ≤ c) (hc : covered c) :
    row ≠ [] := by
  rintro rfl
  have hcaret := (h.caret_iff (c - column)).2 (by rwa [Nat.add_sub_cancel' hle])
  simp at hcaret

theorem cons {c : Char} (h : Drawn covered (column + 1) row) (hcaret : c = '^' ↔ covered column)
    (hblank : ¬ covered column → c = ' ' ∧ row ≠ []) : Drawn covered column (c :: row) := by
  have hshift (i : Nat) : column + 1 + i = column + (i + 1) := by omega
  constructor <;> intro i
  case caret_iff =>
    cases i with
    | zero => simpa using hcaret
    | succ i => rw [List.getElem?_cons_succ, h.caret_iff, hshift]
  case blank_of_not =>
    intro hi hnot
    cases i with
    | zero => simpa using (hblank hnot).1
    | succ i =>
      rw [← hshift] at hnot
      rw [List.getElem?_cons_succ]
      exact h.blank_of_not i (Nat.lt_of_succ_lt_succ hi) hnot
  case last =>
    intro hi
    cases i with
    | zero =>
      by_contra hnot
      exact (hblank hnot).2 (List.length_eq_zero_iff.1 (Nat.succ.inj hi).symm)
    | succ i =>
      rw [← hshift]
      exact h.last i (Nat.succ.inj hi)

theorem carets {n : Nat} (h : Drawn covered (column + n) row)
    (hc : ∀ c, column ≤ c → c < column + n → covered c) :
    Drawn covered column (List.replicate n '^' ++ row) := by
  induction n generalizing column with
  | zero => exact h
  | succ n ih =>
    rw [Nat.add_comm n, ← Nat.add_assoc] at h
    have hrest := ih h fun c hle hlt => hc c (by omega) (by omega)
    have hfirst := hc column (Nat.le_refl _) (by omega)
    exact hrest.cons (iff_of_true rfl hfirst) fun hnot => absurd hfirst hnot

theorem blanks {n : Nat} (h : Drawn covered (column + n) row)
    (hc : ∀ c, column ≤ c → c < column + n → ¬ covered c) (hrow : 0 < n → row ≠ []) :
    Drawn covered column (List.replicate n ' ' ++ row) := by
  induction n generalizing column with
  | zero => exact h
  | succ n ih =>
    rw [Nat.add_comm n, ← Nat.add_assoc] at h
    have hrow := hrow (Nat.succ_pos n)
    have hrest := ih h (fun c hle hlt => hc c (by omega) (by omega)) fun _ => hrow
    have hfirst := hc column (Nat.le_refl _) (by omega)
    exact hrest.cons (iff_of_false (by decide) hfirst) fun _ => ⟨rfl, by simp [hrow]⟩

end Drawn

/-- One underline more in front. It covers nothing of what is drawn after it, and the columns before
it are not covered by those that come later. -/
theorem Drawn.underline {u : Underline} {more : List Underline} {column : Nat} {row : List Char}
    (hu : u.first < u.stop) (hfirst : ∀ m ∈ more, u.first ≤ m.first)
    (h : Drawn (fun c => ∃ m ∈ more, m.Covers c) (max (max column u.first) u.stop) row) :
    Drawn (fun c => ∃ m ∈ u :: more, m.Covers c) column
      (List.replicate (u.first - column) ' ' ++
        List.replicate (u.stop - max column u.first) '^' ++ row) := by
  have hmax (a b : Nat) : a + (b - a) = max a b := by omega
  have hrest : Drawn (fun c => ∃ m ∈ u :: more, m.Covers c)
      (max column u.first + (u.stop - max column u.first)) row := by
    rw [hmax]
    refine h.congr fun c hc => ?_
    have hpast : ¬ u.Covers c := fun hcovers => by unfold Underline.Covers at hcovers; omega
    simp [hpast]
  have hcarets : Drawn (fun c => ∃ m ∈ u :: more, m.Covers c) (column + (u.first - column))
      (List.replicate (u.stop - max column u.first) '^' ++ row) := by
    rw [hmax]
    exact hrest.carets fun c hle hlt => ⟨u, List.mem_cons_self, by unfold Underline.Covers; omega⟩
  rw [List.append_assoc]
  refine hcarets.blanks (fun c hle hlt => ?_) fun hpos => ?_
  · rintro ⟨m, hm, hcovers⟩
    have hm : u.first ≤ m.first := by
      obtain rfl | hm := List.mem_cons.1 hm
      · exact Nat.le_refl _
      · exact hfirst m hm
    unfold Underline.Covers at hcovers
    omega
  · exact hcarets.ne_nil (c := u.first) (by omega) ⟨u, List.mem_cons_self, Nat.le_refl _, hu⟩

theorem drawn_carets {marks : List Underline} (hsorted : marks.Pairwise (·.first ≤ ·.first))
    (hmarks : ∀ u ∈ marks, u.first < u.stop) (column : Nat) :
    Drawn (fun c => ∃ u ∈ marks, u.Covers c) column (Underline.carets column marks) := by
  induction marks generalizing column with
  | nil => exact .nil (by simp)
  | cons u more ih =>
    obtain ⟨hfirst, hmore⟩ := List.pairwise_cons.1 hsorted
    obtain ⟨hu, hrest⟩ := List.forall_mem_cons.1 hmarks
    exact .underline hu hfirst (ih hmore hrest _)

-- One underline inside another, and one that goes on behind it.
example : Underline.carets 1 [⟨2, 6, ""⟩, ⟨3, 4, ""⟩, ⟨5, 8, ""⟩, ⟨9, 10, ""⟩] =
    " ^^^^^^ ^".toList := by
  decide

/-! ## The carets below a line -/

namespace View

section

variable (v : View) (labels : List Label) (line : Nat)

theorem pairwise_underlines : (v.underlines labels line).Pairwise (·.first ≤ ·.first) := by
  have hsorted : (v.underlines labels line).Pairwise fun a b => decide (a.first ≤ b.first) := by
    refine List.pairwise_mergeSort (fun a b c => ?_) (fun a b => ?_) _
    · simpa using Nat.le_trans
    · simpa using Nat.le_total a.first b.first
  simpa using hsorted

theorem first_lt_stop (label : Label) :
    (v.underline line label).first < (v.underline line label).stop :=
  Nat.lt_of_succ_le (Nat.le_max_right _ _)

theorem drawn_underlines :
    Drawn (fun column => ∃ label ∈ labels, v.touches line label ∧
        (v.underline line label).Covers column) 1
      (Underline.carets 1 (v.underlines labels line)) := by
  have hmarks : ∀ u ∈ v.underlines labels line, u.first < u.stop := by
    intro u hu
    obtain ⟨label, -, -, rfl⟩ := mem_underlines.1 hu
    exact v.first_lt_stop line label
  refine (drawn_carets (v.pairwise_underlines labels line) hmarks 1).congr fun column _ => ?_
  simp only [mem_underlines]
  constructor
  · rintro ⟨_, ⟨label, hlabel, htouches, rfl⟩, hcovers⟩
    exact ⟨label, hlabel, htouches, hcovers⟩
  · rintro ⟨label, hlabel, htouches, hcovers⟩
    exact ⟨_, ⟨label, hlabel, htouches, rfl⟩, hcovers⟩

end

end View

/-! ## Whole diagnostics -/

/-- A diagnostic is shown with `lines`, and with the row `carets` below each of them. -/
structure Quoted (v : View) (d : Diagnostic) (lines : List Nat) (carets : Nat → List Char) :
    Prop where
  render_eq : v.render d = View.unlines
    (d.display :: quotation v d.labels lines carets ++ d.notes.map ("  = " ++ ·))
  increasing : lines.Pairwise (· < ·)
  /-- Just the lines that some label touches are shown. -/
  mem_iff (line : Nat) : line ∈ lines ↔ ∃ label ∈ d.labels,
    (v.position label.span.start).line ≤ line ∧ line ≤ (v.position label.span.last).line
  /-- Line numbers are as wide as the blanks before the carets. -/
  aligned : ∀ line ∈ lines, (padLeft (gutter (lines.getLast?.getD 1)) (toString line)).length =
    gutter (lines.getLast?.getD 1)
  /-- The carets are in the columns of the labels that touch the line. -/
  drawn : ∀ line ∈ lines, Drawn (fun column => ∃ label ∈ d.labels,
    v.touches line label ∧ (v.underline line label).Covers column) 1 (carets line)

/-- However the labels lie, each line that one of them touches is shown once, in order, with a caret
in just the columns that the labels cover. -/
theorem labels_underlined_together (source file : String) (d : Diagnostic) : ∃ lines carets,
    Quoted { text := source.toList, file, color := false } d lines carets := by
  refine ⟨(View.plain source.toList file).shownLines d.labels,
    (View.plain source.toList file).caretsBelow d.labels, ?_⟩
  constructor
  case render_eq => exact View.render_plain d
  case increasing => exact View.pairwise_shownLines _ d.labels
  case mem_iff =>
    intro line
    simp only [View.mem_shownLines, View.touches_iff]
    rfl
  case aligned =>
    intro line hline
    exact length_padLeft_gutter (View.le_last_shownLines hline)
  case drawn => exact fun line _ => View.drawn_underlines _ d.labels line

end Treewalk
