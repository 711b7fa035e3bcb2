import Treewalk.Proofs.Lexeme.Joining

/-!
# Places in a source

A place is a line and a span. Every token and every error of a scanned source has the place of a
piece of it: the span is that of whole characters, and the line is counted from the newlines before
them.
-/

namespace Treewalk

namespace Source

/-! ## Lines by newlines -/

/-- How many newlines begin before byte `p` of a text. -/
def newlinesBefore : Nat → List Char → Nat
  | 0, _ => 0
  | _ + 1, [] => 0
  | p + 1, c :: text => (if c = '\n' then 1 else 0) + newlinesBefore (p + 1 - c.utf8Size) text

@[simp] theorem newlinesBefore_zero (text : List Char) : newlinesBefore 0 text = 0 := by
  unfold newlinesBefore
  rfl

@[simp] theorem newlinesBefore_nil (p : Nat) : newlinesBefore p [] = 0 := by
  cases p <;> rfl

theorem newlinesBefore_append (s : List Char) (p : Nat) (text : List Char) :
    newlinesBefore (byteLength s + p) (s ++ text) = s.count '\n' + newlinesBefore p text := by
  induction s with
  | nil => simp
  | cons c s ih =>
    have hsize : byteLength (c :: s) + p = (c.utf8Size - 1 + byteLength s + p) + 1 := by
      have := c.utf8Size_pos
      rw [byteLength_cons]
      omega
    have hrest : c.utf8Size - 1 + byteLength s + p + 1 - c.utf8Size = byteLength s + p := by
      have := c.utf8Size_pos
      omega
    rw [hsize, List.cons_append, newlinesBefore, hrest, ih, List.count_cons]
    by_cases hc : c = '\n'
    · simp [hc]
      omega
    · simp [hc]

theorem newlinesBefore_byteLength (s text : List Char) :
    newlinesBefore (byteLength s) (s ++ text) = s.count '\n' := by
  rw [← Nat.add_zero (byteLength s), newlinesBefore_append, newlinesBefore_zero, Nat.add_zero]

theorem lt_of_mem_startsFrom {offset p : Nat} {text : List Char} (h : p ∈ startsFrom offset text) :
    offset < p := by
  induction text generalizing offset with
  | nil => simp [startsFrom] at h
  | cons c text ih =>
    have hc := c.utf8Size_pos
    rw [startsFrom] at h
    split at h
    · obtain rfl | h := List.mem_cons.1 h
      · omega
      · have := ih h
        omega
    · have := ih h
      omega

theorem countP_startsFrom (offset p : Nat) (text : List Char) :
    (startsFrom offset text).countP (· ≤ offset + p) = newlinesBefore p text := by
  induction text generalizing offset p with
  | nil => simp [startsFrom]
  | cons c text ih =>
    have hc := c.utf8Size_pos
    have hrest : (startsFrom (offset + c.utf8Size) text).countP (· ≤ offset + p) =
        newlinesBefore (p - c.utf8Size) text := by
      by_cases hp : c.utf8Size ≤ p
      · rw [← ih (offset + c.utf8Size) (p - c.utf8Size)]
        congr 2
        funext q
        congr 2
        omega
      · -- Byte `p` is in the first character, so all other lines start after it.
        rw [Nat.sub_eq_zero_of_le (by omega), newlinesBefore_zero, List.countP_eq_zero]
        intro q hq
        have := lt_of_mem_startsFrom hq
        simp
        omega
    cases p with
    | zero =>
      rw [newlinesBefore_zero, List.countP_eq_zero]
      intro q hq
      have := lt_of_mem_startsFrom hq
      simp
      omega
    | succ p =>
      rw [startsFrom, newlinesBefore, ← hrest]
      split
      · next hnewline =>
        have hfirst : offset + c.utf8Size ≤ offset + (p + 1) := by
          rw [hnewline]
          exact Nat.add_le_add_left (Nat.succ_le_succ (Nat.zero_le p)) offset
        rw [List.countP_cons_of_pos (by simpa using hfirst), Nat.add_comm]
      · rw [Nat.zero_add]

theorem line_ofText (text : List Char) (p : Nat) :
    (LineTable.ofText text).line p = 1 + newlinesBefore p text := by
  have hstarts := countP_startsFrom 0 p text
  rw [Nat.zero_add] at hstarts
  rw [LineTable.line, LineTable.ofText, List.countP_cons_of_pos (by simp), hstarts, Nat.add_comm]

/-! ## Spans of whole characters -/

theorem utf8ByteSize_ofList (text : List Char) :
    (String.ofList text).utf8ByteSize = byteLength text := by
  induction text with
  | nil => rfl
  | cons c text ih =>
    rw [← List.singleton_append, String.ofList_append, String.utf8ByteSize_append, ih,
      byteLength_append]
    simp [byteLength]

theorem byteLength_toList (s : String) : byteLength s.toList = s.utf8ByteSize := by
  rw [← utf8ByteSize_ofList, String.ofList_toList]

/-- The bytes of the span are `text`. -/
def Shows (source : String) (span : Span) (text : String) : Prop :=
  ∃ before after, source = before ++ text ++ after ∧ span.start = before.utf8ByteSize ∧
    span.stop = (before ++ text).utf8ByteSize

/-- The span is one of whole characters, and the line is the one where it begins. -/
structure PointsInto (source : String) (line : Nat) (span : Span) : Prop where
  start_le_stop : span.start ≤ span.stop
  stop_le_size : span.stop ≤ source.utf8ByteSize
  start_isValid : String.Pos.Raw.IsValid source ⟨span.start⟩
  stop_isValid : String.Pos.Raw.IsValid source ⟨span.stop⟩
  line_eq : line = 1 + newlinesBefore span.start source.toList

theorem shows_of_split {source : String} {before text after : List Char}
    (h : source.toList = before ++ text ++ after) :
    Shows source ⟨byteLength before, byteLength before + byteLength text⟩ (.ofList text) := by
  refine ⟨.ofList before, .ofList after, ?_, ?_, ?_⟩
  · rw [← String.ofList_append, ← String.ofList_append, ← h, String.ofList_toList]
  · rw [utf8ByteSize_ofList]
  · rw [← String.ofList_append, utf8ByteSize_ofList, byteLength_append]

theorem Shows.exists_split {source text : String} {span : Span} (h : Shows source span text) :
    ∃ before after, source.toList = before ++ (text.toList ++ after) ∧
      span = ⟨byteLength before, byteLength before + byteLength text.toList⟩ := by
  obtain ⟨before, after, rfl, hstart, hstop⟩ := h
  obtain ⟨start, stop⟩ := span
  refine ⟨before.toList, after.toList, by simp, ?_⟩
  rw [byteLength_toList, byteLength_toList, ← String.utf8ByteSize_append]
  exact congrArg₂ Span.mk hstart hstop

theorem Shows.pointsInto {source text : String} {span : Span} (h : Shows source span text) :
    PointsInto source ((LineTable.ofText source.toList).line span.start) span := by
  obtain ⟨before, after, hsource, hstart, hstop⟩ := h
  refine ⟨?_, ?_, ?_, ?_, line_ofText _ _⟩
  · rw [hstart, hstop, String.utf8ByteSize_append]
    exact Nat.le_add_right _ _
  · rw [hstop, hsource, String.utf8ByteSize_append (t := after)]
    exact Nat.le_add_right _ _
  · refine String.Pos.Raw.isValid_iff_exists_append.2 ⟨before, text ++ after, ?_, ?_⟩
    · rw [hsource, String.append_assoc]
    · rw [hstart]; rfl
  · refine String.Pos.Raw.isValid_iff_exists_append.2 ⟨before ++ text, after, hsource, ?_⟩
    rw [hstop]; rfl

end Source

open Source

/-! ## What is scanned -/

theorem shows_of_token? {source : String} {l : Lexeme} {t : Token}
    (hl : l ∈ Lexeme.lex source.toList)
    (ht : l.token? (LineTable.ofText source.toList) = some t) :
    Shows source t.span t.lexeme ∧ t.line = (LineTable.ofText source.toList).line t.span.start := by
  obtain ⟨before, after, hsource, hstart, -⟩ :=
    (Lexeme.cuts_lexFrom 0 source.toList).decomposes.placed l hl
  obtain ⟨kind, -, rfl⟩ := Option.map_eq_some_iff.1 ht
  have hspan : l.span = ⟨byteLength before, byteLength before + byteLength l.text⟩ := by
    have hstart : l.start = byteLength before := hstart.trans (Nat.zero_add _)
    rw [Lexeme.span, hstart]
  refine ⟨?_, rfl⟩
  dsimp only
  rw [hspan]
  exact shows_of_split hsource

theorem shows_of_mem_words {source : String} {t : Token} (h : t ∈ words source.toList) :
    Shows source t.span t.lexeme ∧ t.line = (LineTable.ofText source.toList).line t.span.start := by
  obtain ⟨l, hl, ht⟩ := List.mem_filterMap.1 h
  exact shows_of_token? hl ht

theorem shows_end (source : String) :
    Shows source ⟨source.utf8ByteSize, source.utf8ByteSize⟩ "" :=
  ⟨source, "", by simp, rfl, by simp⟩

theorem tokens_scan (source : String) : (scan source).tokens = words source.toList ++
    [Token.endAt ((LineTable.ofText source.toList).line source.utf8ByteSize)
      source.utf8ByteSize] := by
  rw [scan, tokens_ofText, byteLength_toList]

theorem endToken_scan (source : String) : endToken (scan source).tokens =
    .endAt ((LineTable.ofText source.toList).line source.utf8ByteSize) source.utf8ByteSize := by
  have hwords : (words source.toList).find? Token.isEnd = none :=
    List.find?_eq_none.2 fun _ => Lexeme.isEnd_of_mem_words
  rw [endToken, tokens_scan, List.find?_append, hwords]
  rfl

theorem pointsInto_of_mem_tokens {source : String} {t : Token} (h : t ∈ (scan source).tokens) :
    PointsInto source t.line t.span := by
  rw [tokens_scan, List.mem_append, List.mem_singleton] at h
  obtain h | rfl := h
  · obtain ⟨hshows, hline⟩ := shows_of_mem_words h
    exact hline ▸ hshows.pointsInto
  · exact (shows_end source).pointsInto

/-- Lexemes of this kind are errors of that cause, and this text at their front shows it. -/
inductive Lexeme.Kind.Faults : Lexeme.Kind → SyntaxError.Cause → String → Prop
  | character (c) : Faults (.unexpected c) .unexpectedCharacter (.singleton c)
  | string : Faults .unterminatedString .unterminatedString "\""
  | comment : Faults .unterminatedComment .unterminatedComment "/*"

theorem Lexeme.Fits.exists_front {kind : Kind} {text after : List Char} (h : Fits kind text after)
    {start n : Nat} {cause : SyntaxError.Cause}
    (hfault : fault? ⟨kind, start, text⟩ = some (cause, n)) : ∃ front back,
      text = front ++ back ∧ n = byteLength front ∧ kind.Faults cause (.ofList front) := by
  unfold fault? at hfault
  cases h with
  | @unexpected c => cases hfault; exact ⟨[c], [], rfl, by simp, .character c⟩
  | openString => cases hfault; exact ⟨['"'], _, rfl, rfl, .string⟩
  | openComment => cases hfault; exact ⟨['/', '*'], _, rfl, rfl, .comment⟩
  | _ => cases hfault

theorem shows_of_error? {source : String} {l : Lexeme} {e : SyntaxError}
    (hl : l ∈ Lexeme.lex source.toList)
    (he : l.error? (LineTable.ofText source.toList) = some e) :
    ∃ mark, l.kind.Faults e.cause mark ∧ Shows source e.span mark ∧ e.span.start = l.span.start ∧
      e.line = (LineTable.ofText source.toList).line e.span.start := by
  obtain ⟨before, after, hsource, hstart, hfits⟩ :=
    (Lexeme.cuts_lexFrom 0 source.toList).decomposes.placed l hl
  obtain ⟨⟨cause, n⟩, hfault, rfl⟩ := Option.map_eq_some_iff.1 he
  obtain ⟨front, back, htext, rfl, hfaults⟩ := hfits.exists_front hfault
  have hstart : l.start = byteLength before := hstart.trans (Nat.zero_add _)
  refine ⟨.ofList front, hfaults, ?_, rfl, rfl⟩
  have hsplit : source.toList = before ++ front ++ (back ++ after) := by
    rw [hsource, htext]
    simp
  dsimp only
  rw [hstart]
  exact shows_of_split hsplit

theorem pointsInto_of_mem_errors {source : String} {e : SyntaxError}
    (h : e ∈ (scan source).errors) : PointsInto source e.line e.span := by
  obtain ⟨l, hl, he⟩ := List.mem_filterMap.1 h
  obtain ⟨mark, -, hshows, -, hline⟩ := shows_of_error? hl he
  exact hline ▸ hshows.pointsInto

end Treewalk
