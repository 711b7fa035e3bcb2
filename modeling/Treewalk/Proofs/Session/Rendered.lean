import Treewalk.Proofs.Diagnostic.Underlines
import Treewalk.Proofs.Lexeme.Accounts
import Treewalk.Proofs.Session.Places

/-!
# Errors as they are shown

An error of a run is shown with the lines of its span. The carets are below the characters of the
span that can be seen: a span never ends with a character of several bytes, unless that is the only
one.
-/

namespace Treewalk

open Source

/-! ## What can be seen -/

/-- A character of the span is at this place, and it is not among those that are left out at the end
of a line. -/
def Visible (text : List Char) (span : Span) (place : Position) : Prop :=
  ∃ before c rest, text = before ++ c :: rest ∧ Position.after before = place ∧
    span.start ≤ byteLength before ∧ byteLength before < span.stop ∧
    place.column ≤ (shownLine text place.line).length

/-- A caret belongs below this place: the span can be seen there, or nothing of it can be seen on
the line and it is where the one caret of such a line is. -/
def Marked (text : List Char) (span : Span) (column : Nat) (place : Position) : Prop :=
  Visible text span place ∨
    (∀ i, ¬ Visible text span ⟨place.line, i⟩) ∧ place.column = if span.isEmpty then column else 1

/-- Neither end of the text is blank, and the last byte is a character or the text is. -/
structure Clear (text : List Char) : Prop where
  head : ∀ c ∈ text.head?, ¬ Lexeme.isBlank c
  last : ∀ c ∈ text.getLast?, ¬ Lexeme.isBlank c ∧ (c.utf8Size = 1 ∨ text = [c])

theorem column_le_of_not_isBlank {text before rest : List Char} {c : Char}
    (h : text = before ++ c :: rest) (hc : ¬ Lexeme.isBlank c) :
    (Position.after before).column ≤ (shownLine text (Position.after before).line).length := by
  refine column_le_shown h ?_ ?_
  · rintro rfl
    exact hc rfl
  · rintro rfl
    exact hc rfl

section

variable {text front init back : List Char} {c : Char} {label : Label} {file : String} {line : Nat}
  (htext : text = front ++ (init ++ c :: back))
  (hspan : label.span = ⟨byteLength front, byteLength (front ++ init) + c.utf8Size⟩)
include htext

theorem Clear.columns_le (hclear : Clear (init ++ [c])) (line : Nat) :
    ((Position.after front).line = line →
      (Position.after front).column ≤ (shownLine text line).length) ∧
    ((Position.after (front ++ init)).line = line →
      (Position.after (front ++ init)).column ≤ (shownLine text line).length) := by
  constructor
  · rintro rfl
    obtain ⟨d, more, hmore⟩ := List.exists_cons_of_ne_nil (l := init ++ [c]) (by simp)
    have hstart : text = front ++ d :: (more ++ back) := by
      rw [htext, ← List.cons_append, ← hmore]
      simp
    exact column_le_of_not_isBlank hstart (hclear.head d (by simp [hmore]))
  · rintro rfl
    exact column_le_of_not_isBlank (htext.trans (List.append_assoc ..).symm)
      (hclear.last c (by simp)).1

include hspan

theorem visible_iff (hpos : 1 ≤ line) (hle : line ≤ text.count '\n' + 1) (column : Nat) :
    Visible text label.span ⟨line, column⟩ ↔
      1 ≤ column ∧ column ≤ (shownLine text line).length ∧
        ¬ Position.Precedes ⟨line, column⟩ (.after front) ∧
        ¬ (Position.after (front ++ init)).Precedes ⟨line, column⟩ := by
  have htext' : text = (front ++ init) ++ c :: back := by rw [htext, List.append_assoc]
  -- For a character at the place, the order of bytes is the order of places.
  have hplace : ∀ {before d rest}, text = before ++ d :: rest →
      Position.after before = ⟨line, column⟩ →
      (label.span.start ≤ byteLength before ∧ byteLength before < label.span.stop ↔
        ¬ Position.Precedes ⟨line, column⟩ (.after front) ∧
          ¬ (Position.after (front ++ init)).Precedes ⟨line, column⟩) := by
    intro before d rest hbefore hafter
    rw [← hafter, Position.precedes_iff (hbefore.symm.trans htext),
      Position.precedes_iff (htext'.symm.trans hbefore), hspan]
    rw [begins_before_stop_iff (hbefore.symm.trans htext'), Nat.not_lt, Nat.not_lt]
  constructor
  · rintro ⟨before, d, rest, hbefore, hafter, hstart, hstop, hshown⟩
    have hcolumn := congrArg Position.column hafter
    have hone : 1 ≤ (Position.after before).column := Nat.le_add_left 1 _
    rw [hcolumn] at hone
    exact ⟨hone, hshown, (hplace hbefore hafter).1 ⟨hstart, hstop⟩⟩
  · rintro ⟨hone, hshown, horder⟩
    obtain ⟨before, d, rest, hbefore, hafter⟩ := exists_char_at hpos hle hone hshown
    obtain ⟨hstart, hstop⟩ := (hplace hbefore hafter).2 horder
    exact ⟨before, d, rest, hbefore, hafter, hstart, hstop, hshown⟩

theorem caret_iff_marked_concat (hclear : Clear (init ++ [c]))
    (hfirst : (Position.after front).line ≤ line)
    (hlast : line ≤ (Position.after (front ++ init)).line) (i : Nat) :
    ((View.plain text file).underline line label).row[i]? = some '^' ↔
      Marked text label.span (Position.after front).column ⟨line, i + 1⟩ := by
  have htext' : text = (front ++ init) ++ c :: back := by rw [htext, List.append_assoc]
  have hpos : 1 ≤ line := Nat.le_trans (Nat.le_add_left 1 _) hfirst
  have hle : line ≤ text.count '\n' + 1 := Nat.le_trans hlast (Position.line_after_le htext')
  obtain ⟨hstart, hstop⟩ := hclear.columns_le htext line
  have horder : ¬ (Position.after (front ++ init)).Precedes (.after front) := by
    rw [Position.precedes_iff (htext'.symm.trans htext), byteLength_append]
    omega
  -- If the last character has more bytes than one, both ends are the same.
  have hone : c.utf8Size = 1 ∨ Position.after (front ++ init) = .after front := by
    refine (hclear.last c (by simp)).2.imp_right fun hsingle => ?_
    have hinit : init = [] := by simpa using hsingle
    rw [hinit, List.append_nil]
  have hcolumns : 1 ≤ (Position.after front).column ∧ 1 ≤ (Position.after (front ++ init)).column :=
    ⟨Nat.le_add_left 1 _, Nat.le_add_left 1 _⟩
  rw [Underline.getElem?_row (View.one_le_first line label),
    View.underline_eq htext hspan hfirst hlast, Marked, View.isEmpty_span hspan]
  simp only [visible_iff htext hspan hpos hle, Position.Precedes] at horder ⊢
  -- From here on only the columns of both ends and of the line matter.
  generalize Position.after front = p at *
  generalize Position.after (front ++ init) = q at *
  generalize (shownLine text line).length = n at *
  obtain ⟨l, k⟩ := p
  obtain ⟨l', k'⟩ := q
  dsimp only at *
  -- Something of the span can be seen on each line that shows anything.
  have hnone : (∀ j, ¬ (1 ≤ j ∧ j ≤ n ∧ ¬ (line < l ∨ line = l ∧ j < k) ∧
      ¬ (l' < line ∨ l' = line ∧ k' < j))) ↔ n = 0 := by
    refine ⟨fun h => ?_, fun h j => by omega⟩
    have hfront := h k
    have hback := h k'
    have hmid := h 1
    omega
  rw [hnone]
  simp only [Position.mk.injEq, Bool.false_eq_true, if_false] at hone ⊢
  split_ifs <;> omega

end

theorem caret_iff_marked_nil {text front back : List Char} {label : Label} {file : String}
    (htext : text = front ++ back) (hspan : label.span = ⟨byteLength front, byteLength front⟩)
    (i : Nat) :
    ((View.plain text file).underline (Position.after front).line label).row[i]? = some '^' ↔
      Marked text label.span (Position.after front).column
        ⟨(Position.after front).line, i + 1⟩ := by
  have hnone : ∀ place, ¬ Visible text label.span place := by
    rintro place ⟨before, c, rest, -, -, hstart, hstop, -⟩
    rw [hspan] at hstart hstop
    exact absurd hstop (Nat.not_lt.2 hstart)
  have hempty : label.span.isEmpty := by simp [hspan, Span.isEmpty, Span.length]
  have hlast : label.span.last = label.span.start := by rw [Span.last_eq, if_pos hempty]
  rw [Underline.getElem?_row (View.one_le_first _ label), Marked, View.underline, hlast,
    View.position_start htext (by rw [hspan]), hempty]
  simp [hnone]
  omega

theorem caret_iff_marked {text front body back : List Char} {label : Label} {file : String}
    (htext : text = front ++ (body ++ back))
    (hspan : label.span = ⟨byteLength front, byteLength front + byteLength body⟩)
    (hclear : Clear body) {line : Nat} (hfirst : (Position.after front).line ≤ line)
    (hlast : line ≤ ((View.plain text file).position label.span.last).line) (i : Nat) :
    ((View.plain text file).underline line label).row[i]? = some '^' ↔
      Marked text label.span (Position.after front).column ⟨line, i + 1⟩ := by
  induction body using List.reverseRecOn with
  | nil =>
    have hspan' : label.span = ⟨byteLength front, byteLength front⟩ := by simpa using hspan
    have hempty : label.span.isEmpty := by simp [hspan', Span.isEmpty, Span.length]
    rw [Span.last_eq, if_pos hempty, View.position_start htext (by rw [hspan'])] at hlast
    obtain rfl : (Position.after front).line = line := Nat.le_antisymm hfirst hlast
    exact caret_iff_marked_nil htext hspan' i
  | append_singleton init c _ =>
    have htext' : text = front ++ (init ++ c :: back) := by rw [htext]; simp
    have hspan' : label.span = ⟨byteLength front, byteLength (front ++ init) + c.utf8Size⟩ := by
      rw [hspan]
      simp [Nat.add_assoc]
    rw [View.position_last htext' hspan'] at hlast
    exact caret_iff_marked_concat htext' hspan' hclear hfirst hlast i

/-! ## Errors at a span -/

/-- The diagnostic of an error at a span is shown with the lines of the span. It starts after
`before`, and `mark` says where the carets are. -/
structure Pictured (source file : String) (d : Diagnostic) (line : Nat) (span : Span)
    (before : List Char) (last : Nat) (mark : Nat → Underline) : Prop where
  starts : before <+: source.toList
  start_eq : span.start = byteLength before
  line_eq : line = (Position.after before).line
  last_eq : last =
    if span.isEmpty then line else 1 + newlinesBefore (span.stop - 1) source.toList
  render_eq : View.render { text := source.toList, file, color := false } d =
    d.picture source.toList file (Position.after before) last mark
  /-- Line numbers are as wide as the blanks before the carets. -/
  aligned : ∀ k, line ≤ k → k ≤ last → (padLeft (gutter last) (toString k)).length = gutter last
  carets : ∀ k, line ≤ k → k ≤ last → ∀ i, (mark k).row[i]? = some '^' ↔
    Marked source.toList span (Position.after before).column ⟨k, i + 1⟩

theorem pictured_of_clear {source text : String} {label : Label}
    (hshows : Shows source label.span text) (hclear : Clear text.toList) {d : Diagnostic}
    (hlabels : d.labels = [label]) (file : String) : ∃ before last mark,
      Pictured source file d ((LineTable.ofText source.toList).line label.span.start) label.span
        before last mark := by
  obtain ⟨before, after, hsource, hspan⟩ := hshows.exists_split
  have hpoints := hshows.pointsInto
  have hsize := byteLength_toList source
  have hstart : (View.plain source.toList file).position label.span.start = .after before :=
    View.position_start hsource (by rw [hspan])
  have hline : (LineTable.ofText source.toList).line label.span.start =
      (Position.after before).line := by
    have hle := Nat.le_trans hpoints.start_le_stop hpoints.stop_le_size
    rw [line_ofText, ← hstart, View.line_position (hsize.symm ▸ hle)]
  have hrender := @View.render_of_label source.toList file d label hlabels
  rw [hstart] at hrender
  refine ⟨before, _, _, ⟨_, hsource.symm⟩, by rw [hspan], hline, ?_, hrender,
    fun k _ => length_padLeft_gutter, fun k hfirst hlast =>
      caret_iff_marked hsource hspan hclear (hline ▸ hfirst) hlast⟩
  rw [Span.last_eq]
  split
  · rw [hstart, hline]
  · have hle := hpoints.stop_le_size
    rw [View.line_position (by omega)]

/-! ## Tokens -/

/-- A character that can be seen and is a single byte. -/
def isPlain (c : Char) : Bool := !Lexeme.isBlank c && c.utf8Size = 1

theorem clear_of_all_plain {text : List Char} (h : text.all isPlain) : Clear text := by
  have hchar : ∀ c ∈ text, ¬ Lexeme.isBlank c ∧ c.utf8Size = 1 := by
    simpa [isPlain] using h
  exact ⟨fun c hc => (hchar c (List.mem_of_mem_head? hc)).1,
    fun c hc => (hchar c (List.mem_of_mem_getLast? hc)).imp_right .inl⟩

namespace Lexeme

theorem isPlain_of_inWord {c : Char} (h : inWord c) : isPlain c := by
  have hblank : ¬ isBlank c := by
    refine not_isBlank_of_opens ?_
    simp only [inWord, Char.isAlphanum, Bool.or_eq_true] at h
    obtain (h | h) | h := h <;> simp [opens, startsWord, h]
  have hsize : c.utf8Size = 1 := by
    simp only [inWord, Char.isAlphanum, Char.isAlpha, Char.isUpper, Char.isLower, Char.isDigit,
      Bool.or_eq_true, Bool.and_eq_true, decide_eq_true_eq] at h
    rw [Char.utf8Size_eq_one_iff]
    obtain ((⟨-, h⟩ | ⟨-, h⟩) | ⟨-, h⟩) | rfl := h
    · exact UInt32.le_trans h (by decide)
    · exact UInt32.le_trans h (by decide)
    · exact UInt32.le_trans h (by decide)
    · decide
  simp [isPlain, hblank, hsize]

theorem isPlain_of_isDigit {c : Char} (h : c.isDigit) : isPlain c :=
  isPlain_of_inWord (by simp [inWord, Char.isAlphanum, h])

theorem isPlain_of_startsWord {c : Char} (h : startsWord c) : isPlain c := by
  refine isPlain_of_inWord ?_
  simp only [startsWord, inWord, Char.isAlphanum, Bool.or_eq_true] at h ⊢
  exact h.imp_left .inl

/-- Only a string can have blanks or characters of several bytes, and they are inside it. -/
theorem Fits.clear {kind : Kind} {text after : List Char} (h : Fits kind text after)
    (htoken : (tokenKind? ⟨kind, 0, text⟩).isSome) : Clear text := by
  cases h with
  | whole hc hmore =>
    refine clear_of_all_plain (List.all_eq_true.2 (List.forall_mem_cons.2 ⟨?_, fun d hd => ?_⟩))
    · exact isPlain_of_isDigit hc
    · exact isPlain_of_isDigit (hmore d hd)
  | fraction hc hmore hd hdigits =>
    refine clear_of_all_plain (List.all_eq_true.2 fun e he => ?_)
    simp only [List.mem_append, List.mem_cons] at he
    obtain rfl | he | rfl | rfl | he := he
    · exact isPlain_of_isDigit hc
    · exact isPlain_of_isDigit (hmore e he)
    · rfl
    · exact isPlain_of_isDigit hd
    · exact isPlain_of_isDigit (hdigits e he)
  | @string body =>
    refine ⟨by simp [isBlank], ?_⟩
    rw [← List.cons_append, List.getLast?_concat]
    rintro c ⟨⟩
    exact ⟨by decide, .inl rfl⟩
  | keyword hc hmore | identifier hc hmore =>
    refine clear_of_all_plain (List.all_eq_true.2 (List.forall_mem_cons.2 ⟨?_, fun d hd => ?_⟩))
    · exact isPlain_of_startsWord hc
    · exact isPlain_of_inWord (hmore d hd)
  | operator hop =>
    have hall : operators.all fun op => op.1.all isPlain := rfl
    exact clear_of_all_plain (List.all_eq_true.1 hall _ hop)
  | _ => simp [tokenKind?] at htoken

end Lexeme

theorem pictured_of_mem_tokens {source : String} {t : Token} (ht : t ∈ (scan source).tokens)
    {d : Diagnostic} {message : String} (hlabels : d.labels = [⟨t.span, message⟩]) (file : String) :
    ∃ front last mark, Pictured source file d t.line t.span front last mark := by
  rw [tokens_scan, List.mem_append, List.mem_singleton] at ht
  obtain ht | rfl := ht
  · obtain ⟨hshows, hline⟩ := shows_of_mem_words ht
    obtain ⟨kind, text, after, hfits, hspells⟩ := spelled_of_mem_words ht
    have hclear : Clear t.lexeme.toList := by
      rw [hspells.lexeme, String.toList_ofList]
      exact hfits.clear (by simp [hspells.kind])
    rw [hline]
    exact pictured_of_clear hshows hclear hlabels file
  · exact pictured_of_clear (shows_end source) ⟨by simp, by simp⟩ hlabels file

/-! ## Errors of a run -/

theorem Lexeme.Kind.Faults.clear {kind : Lexeme.Kind} {text after : List Char}
    (hfits : Lexeme.Fits kind text after) {cause : SyntaxError.Cause} {mark : String}
    (h : kind.Faults cause mark) : Clear mark.toList := by
  cases h with
  | character c =>
    cases hfits with
    | unexpected hblank =>
      rw [String.toList_singleton]
      exact ⟨by simpa using hblank, by simpa using hblank⟩
  | string => exact clear_of_all_plain rfl
  | comment => exact clear_of_all_plain rfl

theorem pictured_of_mem_errors {source : String} {e : SyntaxError} (he : e ∈ (scan source).errors)
    (file : String) :
    ∃ front last mark, Pictured source file e.diagnostic e.line e.span front last mark := by
  obtain ⟨l, hl, he⟩ := List.mem_filterMap.1 he
  obtain ⟨mark, hfaults, hshows, -, hline⟩ := shows_of_error? hl he
  obtain ⟨before, after, -, -, hfits⟩ :=
    (Lexeme.cuts_lexFrom 0 source.toList).decomposes.placed l hl
  rw [hline]
  exact @pictured_of_clear source mark ⟨e.span, e.label⟩ hshows (hfaults.clear hfits) e.diagnostic
    rfl file

/-- Every error that a run reports is shown at its line and column, with all lines of its span and
carets below what can be seen of it. -/
theorem reported_errors_pictured {before after : Session} {n : Nat} {source : String}
    {status : Status} {log : ErrorLog}
    (hrun : before.runWith ErrorLog.reporter n source {} = some (status, log, after))
    (file : String) :
    (∀ e ∈ log.syntaxErrors, ∃ front last mark,
      Pictured source file e.diagnostic e.line e.span front last mark) ∧
    ∀ e ∈ log.runtimeErrors, ∃ front last mark,
      Pictured source file e.diagnostic e.line e.token.span front last mark := by
  refine ⟨fun e he => ?_, fun e he => ?_⟩
  · obtain ⟨message, error, hall, -⟩ := Session.exists_eventsOf hrun
    have hsame := (hall _ ErrorLog.reporter {}).symm.trans hrun
    simp only [Option.some.injEq, Prod.mk.injEq] at hsame
    rw [← hsame.2.1, ErrorLog.syntaxErrors_tellAll, syntaxErrors_eventsOf, List.nil_append] at he
    obtain hscan | hparse := List.mem_append.1 he
    · exact pictured_of_mem_errors hscan file
    · obtain ⟨t, ht, he⟩ := exists_token_of_mem_parse hparse
      rw [he]
      exact pictured_of_mem_tokens ht rfl file
  · exact pictured_of_mem_tokens (Session.blames_token hrun he).1 rfl file

theorem reported_errors_pictured_string : ∃ (log : ErrorLog) (after : Session),
    Session.runWith ErrorLog.reporter 0 "var \"é\n\nb\";" {} {} = some (.syntaxError, log, after) ∧
    ∃ e ∈ log.syntaxErrors, e.span = ⟨4, 11⟩ ∧
      ∃ front mark, Pictured "var \"é\n\nb\";" "f" e.diagnostic 1 e.span front 3 mark := by
  have herrors : syntaxErrorsOf "var \"é\n\nb\";" =
      [⟨.expected .variableName, 1, some (.atLexeme "\"é\n\nb\""), ⟨4, 11⟩⟩] := by
    decide +kernel
  have hfaulty : ¬ WellFormed "var \"é\n\nb\";" := by
    rw [wellFormed_iff, herrors]
    exact List.cons_ne_nil _ _
  have hrun := @Session.runWith_of_faulty _ ErrorLog.reporter 0 _ {} {} hfaulty
  have hlogged : ⟨.expected .variableName, 1, some (.atLexeme "\"é\n\nb\""), ⟨4, 11⟩⟩ ∈
      (ErrorLog.reporter.tellAll {} (eventsOf "var \"é\n\nb\";"
        "Skipping execution due to syntax errors" none)).syntaxErrors := by
    rw [ErrorLog.syntaxErrors_tellAll, syntaxErrors_eventsOf, herrors]
    exact List.mem_singleton_self _
  obtain ⟨front, last, mark, hpictured⟩ := (reported_errors_pictured hrun "f").1 _ hlogged
  obtain rfl : last = 3 := hpictured.last_eq.trans (by decide)
  exact ⟨_, _, hrun, _, hlogged, rfl, front, mark, hpictured⟩

end Treewalk
