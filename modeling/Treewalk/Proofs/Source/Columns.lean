import Mathlib.Data.List.DropRight
import Treewalk.Proofs.Lexeme.Places

/-!
# Lines and columns from the text before

The text before a place says where it is: its newlines give the line, and the characters after the
last of them give the column. The line table finds the same by counting bytes.
-/

namespace Treewalk.Source

/-! ## Places -/

/-- The characters after the last newline. -/
def lastLine (text : List Char) : List Char := text.rtakeWhile (· ≠ '\n')

theorem lastLine_concat (text : List Char) (c : Char) :
    lastLine (text ++ [c]) = if c = '\n' then [] else lastLine text ++ [c] := by
  rw [lastLine, List.rtakeWhile_concat]
  by_cases hc : c = '\n' <;> simp [hc, lastLine]

theorem lastLine_append {t : List Char} (h : '\n' ∉ t) (s : List Char) :
    lastLine (s ++ t) = lastLine s ++ t := by
  induction t using List.reverseRecOn with
  | nil => simp
  | append_singleton t c ih =>
    simp only [List.mem_append, List.mem_singleton, not_or] at h
    rw [← List.append_assoc, lastLine_concat, if_neg (Ne.symm h.2), ih h.1, List.append_assoc]

theorem newline_not_mem_lastLine (text : List Char) : '\n' ∉ lastLine text := by
  intro h
  simpa using List.mem_rtakeWhile_imp h

namespace Position

/-- The place right after a text. -/
def after (text : List Char) : Position := ⟨text.count '\n' + 1, (lastLine text).length + 1⟩

/-- One place comes before another in reading order. -/
def Precedes (p q : Position) : Prop :=
  p.line < q.line ∨ p.line = q.line ∧ p.column < q.column

theorem Precedes.trans {p q r : Position} (h : p.Precedes q) (h' : q.Precedes r) :
    p.Precedes r := by
  unfold Precedes at *
  omega

theorem Precedes.asymm {p q : Position} (h : p.Precedes q) : ¬ q.Precedes p := by
  unfold Precedes at *
  omega

theorem after_concat (text : List Char) (c : Char) : after (text ++ [c]) =
    if c = '\n' then ⟨(after text).line + 1, 1⟩
    else ⟨(after text).line, (after text).column + 1⟩ := by
  simp only [after, lastLine_concat, List.count_append]
  split
  · next hc => simp [hc]
  · next hc => simp [hc]

theorem after_append (s : List Char) {t : List Char} (h : '\n' ∉ t) :
    after (s ++ t) = ⟨(after s).line, (after s).column + t.length⟩ := by
  simp only [after, lastLine_append h, List.count_append, List.count_eq_zero.2 h, Nat.add_zero,
    List.length_append, Nat.add_right_comm]

theorem line_after_le {text before rest : List Char} (h : text = before ++ rest) :
    (after before).line ≤ text.count '\n' + 1 := by
  rw [h, List.count_append]
  exact Nat.add_le_add_right (Nat.le_add_right _ _) 1

theorem precedes_append (s : List Char) {t : List Char} (h : t ≠ []) :
    (after s).Precedes (after (s ++ t)) := by
  induction t generalizing s with
  | nil => exact absurd rfl h
  | cons c t ih =>
    have hstep : (after s).Precedes (after (s ++ [c])) := by
      rw [after_concat]
      unfold Precedes
      split
      · exact .inl (Nat.lt_succ_self _)
      · exact .inr ⟨rfl, Nat.lt_succ_self _⟩
    by_cases ht : t = []
    · rw [ht]
      exact hstep
    · have hrest := ih (s ++ [c]) ht
      rw [List.append_assoc, List.singleton_append] at hrest
      exact hstep.trans hrest

theorem precedes_iff {s t u v : List Char} (h : s ++ t = u ++ v) :
    (after s).Precedes (after u) ↔ byteLength s < byteLength u := by
  constructor
  · intro hbefore
    by_contra hle
    obtain ⟨mid, rfl, -⟩ := Lexeme.exists_between h.symm (Nat.le_of_not_lt hle)
    by_cases hmid : mid = []
    · rw [hmid, List.append_nil] at hbefore
      exact hbefore.asymm hbefore
    · exact hbefore.asymm (precedes_append u hmid)
  · intro hlt
    obtain ⟨mid, rfl, -⟩ := Lexeme.exists_between h (Nat.le_of_lt hlt)
    refine precedes_append s ?_
    rintro rfl
    simp at hlt

end Position

/-! ## Lines -/

/-- A line of a text, counted from 1, without its newline. -/
def lineOf (text : List Char) (line : Nat) : List Char := (text.splitOn '\n').getD (line - 1) []

/-- A line without the carriage returns at its end. -/
def shownLine (text : List Char) (line : Nat) : List Char :=
  (lineOf text line).rdropWhile (· = '\r')

/-- The line of that number is `body`, with `head` before it and `tail` after it. -/
structure IsLine (text : List Char) (line : Nat) (head body tail : List Char) : Prop where
  text_eq : text = head ++ (body ++ tail)
  line_eq : line = head.count '\n' + 1
  starts : lastLine head = []
  whole : '\n' ∉ body
  stops : ∀ c ∈ tail.head?, c = '\n'

theorem head_cases {head : List Char} (h : lastLine head = []) :
    head = [] ∨ ∃ front, head = front ++ ['\n'] := by
  rcases List.eq_nil_or_concat head with rfl | ⟨front, c, rfl⟩
  · exact .inl rfl
  · rw [List.concat_eq_append, lastLine_concat] at h
    split at h
    · next hc => exact .inr ⟨front, by rw [hc, List.concat_eq_append]⟩
    · simp at h

theorem length_splitOn (text : List Char) :
    (text.splitOn '\n').length = text.count '\n' + 1 := by
  induction text with
  | nil => rfl
  | cons c text ih =>
    rw [List.splitOn_cons_eq_if_modifyHead, List.count_cons]
    split <;> simp_all

theorem exists_isLine (before rest : List Char) : ∃ head more tail,
    IsLine (before ++ rest) (Position.after before).line head (lastLine before ++ more) tail ∧
      before = head ++ lastLine before ∧ rest = more ++ tail := by
  have hbefore : before = before.rdropWhile (· ≠ '\n') ++ lastLine before :=
    List.rdropWhile_append_rtakeWhile.symm
  have hnone := newline_not_mem_lastLine before
  obtain ⟨more, tail, rfl, hmore, htail⟩ := Lexeme.exists_run (· ≠ '\n') rest
  refine ⟨before.rdropWhile (· ≠ '\n'), more, tail, ⟨?_, ?_, ?_, ?_, by simpa using htail⟩,
    hbefore, rfl⟩
  · conv_lhs => rw [hbefore]
    simp
  · have hcount := congrArg (List.count '\n') hbefore
    rw [List.count_append, List.count_eq_zero.2 hnone] at hcount
    rw [Position.after, hcount, Nat.add_zero]
  · exact List.rtakeWhile_eq_nil_iff.2 fun hne => List.rdropWhile_last_not _ _ hne
  · rw [List.mem_append, not_or]
    exact ⟨hnone, fun h => by simpa using hmore _ h⟩

namespace IsLine

variable {text head body tail : List Char} {line : Nat}

theorem lineOf_eq (h : IsLine text line head body tail) : lineOf text line = body := by
  have hfirst : ∃ more, (body ++ tail).splitOn '\n' = body :: more := by
    cases tail with
    | nil => exact ⟨[], by rw [List.append_nil, List.splitOn_eq_singleton h.whole]⟩
    | cons c tail =>
      obtain rfl := h.stops c rfl
      exact ⟨_, List.splitOn_append_cons_self_of_not_mem h.whole tail⟩
  obtain ⟨more, hmore⟩ := hfirst
  rw [lineOf, h.text_eq, h.line_eq]
  obtain rfl | ⟨front, rfl⟩ := head_cases h.starts
  · simp [hmore]
  · rw [List.append_assoc, List.singleton_append, List.splitOn_append_cons_self, hmore,
      List.getD_append_right]
    all_goals simp [length_splitOn]

theorem start?_eq (h : IsLine text line head body tail) :
    (LineTable.ofText text).start? line = some (byteLength head) := by
  rw [h.text_eq, h.line_eq, LineTable.start?, LineTable.ofText, startsFrom_append]
  obtain rfl | ⟨front, rfl⟩ := head_cases h.starts
  · rfl
  · have hlast : startsFrom (0 + byteLength front) ['\n'] = [byteLength (front ++ ['\n'])] := by
      rw [startsFrom, if_pos rfl, startsFrom, byteLength_append, Nat.zero_add]
      rfl
    have hcount : (front ++ ['\n']).count '\n' = (startsFrom 0 front).length + 1 := by
      rw [length_startsFrom, List.count_append]
      rfl
    rw [startsFrom_append, hlast, hcount, List.getElem?_cons_succ, List.append_assoc,
      List.getElem?_append_right (Nat.le_refl _), Nat.sub_self]
    rfl

end IsLine

/-! ## The line table -/

section

variable {text before rest : List Char} (h : text = before ++ rest)
include h

theorem position_add {p : Nat} (hp : newlinesBefore p rest = 0) (hle : p ≤ byteLength rest) :
    (LineTable.ofText text).position text (byteLength before + p) =
      ⟨(Position.after before).line,
        (charsIn? (byteLength (lastLine before) + p) (lastLine before ++ rest)).getD 0 + 1⟩ := by
  subst h
  obtain ⟨head, more, tail, hline, hbefore, hrest⟩ := exists_isLine before rest
  have hmin : min (byteLength before + p) (byteLength (before ++ rest)) =
      byteLength before + p := by
    rw [byteLength_append]
    omega
  have hnumber : (LineTable.ofText (before ++ rest)).line (byteLength before + p) =
      (Position.after before).line := by
    rw [line_ofText, newlinesBefore_append, hp, Nat.add_zero, Nat.add_comm]
    rfl
  have hdrop : dropBytes? (byteLength head) (before ++ rest) = some (lastLine before ++ rest) := by
    conv_lhs => rw [hbefore, List.append_assoc]
    exact dropBytes?_append _ _
  have hoffset : byteLength before + p - byteLength head = byteLength (lastLine before) + p := by
    have hsize := congrArg byteLength hbefore
    rw [byteLength_append] at hsize
    omega
  simp only [LineTable.position, hmin, hnumber, hline.start?_eq, Option.getD_some, hdrop, hoffset]
  rfl

theorem position_after :
    (LineTable.ofText text).position text (byteLength before) = .after before := by
  have hposition := position_add h (newlinesBefore_zero rest) (Nat.zero_le _)
  simp only [Nat.add_zero, charsIn?, dropBytes?_append] at hposition
  simpa [Position.after] using hposition

end

theorem position_inside {text before rest : List Char} {c : Char} (h : text = before ++ c :: rest)
    {p : Nat} (hp : 0 < p) (hlt : p < c.utf8Size) :
    (LineTable.ofText text).position text (byteLength before + p) =
      ⟨(Position.after before).line, 1⟩ := by
  obtain ⟨q, rfl⟩ := Nat.exists_eq_add_one.2 hp
  have hnewline : c ≠ '\n' := by
    rintro rfl
    exact absurd hlt (by simp [Char.utf8Size])
  have hnone : newlinesBefore (q + 1) (c :: rest) = 0 := by
    rw [newlinesBefore, if_neg hnewline, Nat.sub_eq_zero_of_le (by omega), newlinesBefore_zero]
  rw [position_add h hnone (by rw [byteLength_cons]; omega), charsIn?, dropBytes?_append_add,
    dropBytes?, if_neg (by omega)]
  rfl

/-- Only the last byte of a character of one byte has the column of its character. -/
theorem position_last_byte {text before rest : List Char} {c : Char}
    (h : text = before ++ c :: rest) :
    (LineTable.ofText text).position text (byteLength before + c.utf8Size - 1) =
      ⟨(Position.after before).line,
        if c.utf8Size = 1 then (Position.after before).column else 1⟩ := by
  have hsize := c.utf8Size_pos
  split
  · next hone => rw [hone, Nat.add_sub_cancel, position_after h]
  · next hone => rw [Nat.add_sub_assoc hsize, position_inside h (by omega) (by omega)]

/-! ## Characters of a line -/

theorem exists_line_start {text : List Char} {line : Nat} (hpos : 1 ≤ line)
    (hle : line ≤ text.count '\n' + 1) :
    ∃ before rest, text = before ++ rest ∧ Position.after before = ⟨line, 1⟩ := by
  induction text using List.reverseRecOn with
  | nil =>
    obtain rfl : line = 1 := Nat.le_antisymm hle hpos
    exact ⟨[], [], rfl, rfl⟩
  | append_singleton text c ih =>
    by_cases hfront : line ≤ text.count '\n' + 1
    · obtain ⟨before, rest, rfl, hbefore⟩ := ih hfront
      exact ⟨before, rest ++ [c], List.append_assoc .., hbefore⟩
    · -- The line starts at the end, so the last character is a newline.
      rw [List.count_append, List.count_singleton] at hle
      have hc : c = '\n' := by
        by_contra hc
        simp [hc] at hle
        omega
      subst hc
      refine ⟨text ++ ['\n'], [], by simp, ?_⟩
      rw [Position.after_concat, if_pos rfl, Position.after]
      simp at hle ⊢
      omega

theorem exists_isLine_of_le {text : List Char} {line : Nat} (hpos : 1 ≤ line)
    (hle : line ≤ text.count '\n' + 1) : ∃ head body tail, IsLine text line head body tail := by
  obtain ⟨before, rest, rfl, hbefore⟩ := exists_line_start hpos hle
  obtain ⟨head, more, tail, hline, -⟩ := exists_isLine before rest
  rw [hbefore] at hline
  exact ⟨head, _, tail, hline⟩

theorem begins_before_stop_iff {u v before rest : List Char} {c : Char}
    (h : before ++ rest = u ++ c :: v) :
    byteLength before < byteLength u + c.utf8Size ↔ byteLength before ≤ byteLength u := by
  have hsize := c.utf8Size_pos
  refine ⟨fun hlt => ?_, fun hle => by omega⟩
  by_contra hinside
  obtain ⟨mid, rfl, hmid⟩ := Lexeme.exists_between h.symm (by omega)
  cases mid with
  | nil => simp at hinside
  | cons d mid =>
    obtain ⟨rfl, -⟩ := List.cons.inj hmid
    rw [byteLength_append, byteLength_cons] at hlt
    omega

theorem exists_char_at {text : List Char} {line column : Nat} (hline : 1 ≤ line)
    (hle : line ≤ text.count '\n' + 1) (hpos : 1 ≤ column)
    (hshown : column ≤ (shownLine text line).length) :
    ∃ before c rest, text = before ++ c :: rest ∧ Position.after before = ⟨line, column⟩ := by
  obtain ⟨head, body, tail, h⟩ := exists_isLine_of_le hline hle
  have hlength := (List.rdropWhile_prefix (· = '\r') (lineOf text line)).length_le
  rw [h.lineOf_eq] at hlength
  have hcolumn : column - 1 < body.length := by
    rw [shownLine, h.lineOf_eq] at hshown
    omega
  obtain ⟨front, c, back, rfl, hfront⟩ : ∃ front c back, body = front ++ c :: back ∧
      front.length = column - 1 := by
    refine ⟨body.take (column - 1), body[column - 1], body.drop (column - 1 + 1), ?_, ?_⟩
    · rw [← List.drop_eq_getElem_cons hcolumn, List.take_append_drop]
    · rw [List.length_take, Nat.min_eq_left (Nat.le_of_lt hcolumn)]
  have hnone : '\n' ∉ front := fun hmem => h.whole (List.mem_append_left _ hmem)
  refine ⟨head ++ front, c, back ++ tail, by rw [h.text_eq]; simp, ?_⟩
  rw [Position.after_append head hnone, Position.after, h.starts, ← h.line_eq, hfront]
  exact congrArg (Position.mk line) (by simp; omega)

theorem length_lt_rdropWhile {p : Char → Bool} {s t : List Char} {c : Char} (hc : ¬ p c) :
    s.length < ((s ++ c :: t).rdropWhile p).length := by
  induction t using List.reverseRecOn with
  | nil => rw [List.rdropWhile_concat_neg p s c hc]; simp
  | append_singleton t d ih =>
    rw [← List.cons_append, ← List.append_assoc, List.rdropWhile_concat]
    split
    · exact ih
    · simp

theorem column_le_shown {text before rest : List Char} {c : Char} (h : text = before ++ c :: rest)
    (hnewline : c ≠ '\n') (hreturn : c ≠ '\r') :
    (Position.after before).column ≤ (shownLine text (Position.after before).line).length := by
  subst h
  obtain ⟨head, more, tail, hline, -, hrest⟩ := exists_isLine before (c :: rest)
  cases more with
  | nil =>
    rw [List.nil_append] at hrest
    exact absurd (hline.stops c (by rw [← hrest]; rfl)) hnewline
  | cons d more =>
    obtain ⟨rfl, -⟩ := List.cons.inj hrest
    rw [shownLine, hline.lineOf_eq]
    exact length_lt_rdropWhile (by simpa using hreturn)

end Treewalk.Source
