import Mathlib.Data.List.Basic
import Treewalk.Proofs.Lexeme.Decomposition
import Treewalk.Syntax.Parser
import Treewalk.Token.Scan

/-!
# Sources joined by a newline

A newline ends every lexeme but a string or a comment that is open. So two sources with a newline
between them have the words of the first and then those of the second, moved.
-/

namespace Treewalk

open Source

/-- How far a source is moved by what is put before it. -/
structure Shift where
  lines : Nat
  bytes : Nat

namespace Shift

/-- The shift by a source and the newline after it. -/
def past (source : List Char) : Shift := ⟨source.count '\n' + 1, byteLength source + 1⟩

def zero : Shift := ⟨0, 0⟩

def add (a b : Shift) : Shift := ⟨a.lines + b.lines, a.bytes + b.bytes⟩

end Shift

def Token.moved (d : Shift) (t : Token) : Token :=
  { t with
    line := t.line + d.lines
    span := ⟨t.span.start + d.bytes, t.span.stop + d.bytes⟩ }

def SyntaxError.moved (d : Shift) (e : SyntaxError) : SyntaxError :=
  { e with
    line := e.line + d.lines
    span := ⟨e.span.start + d.bytes, e.span.stop + d.bytes⟩ }

namespace Lexeme

/-! ## Lexemes -/

/-- Neither a string nor a comment that is open. -/
def Kind.Closed (kind : Kind) : Prop := kind ≠ .unterminatedString ∧ kind ≠ .unterminatedComment

theorem Fits.before_newline {kind : Kind} {text after : List Char} (h : Fits kind text after)
    (hclosed : kind.Closed) (rest : List Char) : Fits kind text (after ++ '\n' :: rest) := by
  obtain ⟨hstring, hcomment⟩ := hclosed
  have hhead : ∀ {p : Char → Prop}, (∀ c ∈ after.head?, p c) → p '\n' →
      ∀ c ∈ (after ++ '\n' :: rest).head?, p c := by
    intro p hp hn c hc
    cases after with
    | nil => simp only [List.nil_append, List.head?_cons, Option.mem_some_iff] at hc; exact hc ▸ hn
    | cons d after => exact hp c hc
  cases h with
  | lineComment hbody hafter => exact .lineComment hbody (hhead hafter rfl)
  | blockComment hbody => exact .blockComment hbody
  | openComment => exact absurd rfl hcomment
  | whole hc hmore hafter hpoint =>
    refine .whole hc hmore (hhead hafter (by decide)) fun d more hd => ?_
    cases after with
    | nil => cases hd
    | cons e after =>
      cases after with
      | nil => cases hd; decide
      | cons e' after => cases hd; exact hpoint _ _ rfl
  | fraction hc hmore hd hdigits hafter =>
    exact .fraction hc hmore hd hdigits (hhead hafter (by decide))
  | string hbody => exact .string hbody
  | openString => exact absurd rfl hstring
  | keyword hc hmore hafter hkey => exact .keyword hc hmore (hhead hafter (by decide)) hkey
  | identifier hc hmore hafter hkey => exact .identifier hc hmore (hhead hafter (by decide)) hkey
  | operator hop hafter =>
    refine .operator hop fun c d hc => hhead (fun d hd => hafter c d hc hd) ?_ d
    simp [extends?]
  | unexpected hblank hc => exact .unexpected hblank hc

def moved (bytes : Nat) (l : Lexeme) : Lexeme := { l with start := l.start + bytes }

theorem Cuts.moved {offset : Nat} {text : List Char} {ls : List Lexeme} (h : Cuts offset text ls)
    (bytes : Nat) : Cuts (offset + bytes) text (ls.map (·.moved bytes)) := by
  induction h with
  | done => exact .done
  | blank hc _ ih => exact .blank hc (by rw [Nat.add_right_comm]; exact ih)
  | lexeme hfits _ ih => exact .lexeme hfits (by rw [Nat.add_right_comm]; exact ih)

theorem Cuts.append {offset : Nat} {s t : List Char} {ls ms : List Lexeme} (h : Cuts offset s ls)
    (hls : ∀ l ∈ ls, l.kind.Closed) (h' : Cuts (offset + byteLength s) ('\n' :: t) ms) :
    Cuts offset (s ++ '\n' :: t) (ls ++ ms) := by
  induction h with
  | done => exact h'
  | blank hc _ ih =>
    rw [byteLength_cons, ← Nat.add_assoc] at h'
    exact .blank hc (ih hls h')
  | @lexeme offset kind text after ls hfits _ ih =>
    rw [byteLength_append, ← Nat.add_assoc] at h'
    obtain ⟨hclosed, hls⟩ := List.forall_mem_cons.1 hls
    rw [List.append_assoc]
    exact .lexeme (hfits.before_newline hclosed t) (ih hls h')

theorem lex_join {s : List Char} (hs : ∀ l ∈ lex s, l.kind.Closed) (t : List Char) :
    lex (s ++ '\n' :: t) = lex s ++ (lex t).map (·.moved (byteLength s + 1)) := by
  refine lexFrom_of_cuts (.append (cuts_lexFrom 0 s) hs (.blank rfl ?_))
  have hmoved := (cuts_lexFrom 0 t).moved (byteLength s + 1)
  rw [Nat.zero_add] at hmoved ⊢
  exact hmoved

end Lexeme

/-! ## Lines -/

namespace Source

theorem startsFrom_append (offset : Nat) (s t : List Char) :
    startsFrom offset (s ++ t) = startsFrom offset s ++ startsFrom (offset + byteLength s) t := by
  induction s generalizing offset with
  | nil => rfl
  | cons c s ih =>
    rw [List.cons_append, startsFrom, startsFrom, ih, byteLength_cons, Nat.add_assoc]
    split <;> rfl

theorem startsFrom_add (offset bytes : Nat) (text : List Char) :
    startsFrom (offset + bytes) text = (startsFrom offset text).map (· + bytes) := by
  induction text generalizing offset with
  | nil => rfl
  | cons c text ih =>
    rw [startsFrom, startsFrom, Nat.add_right_comm, ih]
    split <;> rfl

theorem length_startsFrom (offset : Nat) (text : List Char) :
    (startsFrom offset text).length = text.count '\n' := by
  induction text generalizing offset with
  | nil => rfl
  | cons c text ih =>
    rw [startsFrom, List.count_cons]
    split <;> simp_all

theorem length_starts (text : List Char) :
    (LineTable.ofText text).starts.length = text.count '\n' + 1 := by
  rw [LineTable.ofText, List.length_cons, length_startsFrom]

theorem le_of_mem_startsFrom {offset p : Nat} {text : List Char} (h : p ∈ startsFrom offset text) :
    p ≤ offset + byteLength text := by
  induction text generalizing offset with
  | nil => simp [startsFrom] at h
  | cons c text ih =>
    have hmore : p ∈ startsFrom (offset + c.utf8Size) text → p ≤ offset + byteLength (c :: text) := by
      intro hp
      have := ih hp
      rw [byteLength_cons]
      omega
    rw [startsFrom] at h
    split at h
    · obtain rfl | h := List.mem_cons.1 h
      · rw [byteLength_cons]; omega
      · exact hmore h
    · exact hmore h

theorem starts_join (s t : List Char) :
    (LineTable.ofText (s ++ '\n' :: t)).starts =
      (LineTable.ofText s).starts ++ (LineTable.ofText t).starts.map (· + (byteLength s + 1)) := by
  have hsize : '\n'.utf8Size = 1 := rfl
  have hsecond := startsFrom_add 0 (byteLength s + 1) t
  rw [Nat.zero_add] at hsecond
  simp [LineTable.ofText, startsFrom_append, startsFrom, hsize, hsecond]

theorem line_join_left (s t : List Char) {p : Nat} (hp : p ≤ byteLength s) :
    (LineTable.ofText (s ++ '\n' :: t)).line p = (LineTable.ofText s).line p := by
  have hnone : ((LineTable.ofText t).starts.map (· + (byteLength s + 1))).countP (· ≤ p) = 0 := by
    rw [List.countP_eq_zero]
    intro q hq
    obtain ⟨r, -, rfl⟩ := List.mem_map.1 hq
    simp
    omega
  rw [LineTable.line, LineTable.line, starts_join, List.countP_append, hnone, Nat.add_zero]

theorem line_join_right (s t : List Char) (p : Nat) :
    (LineTable.ofText (s ++ '\n' :: t)).line (p + (Shift.past s).bytes) =
      (LineTable.ofText t).line p + (Shift.past s).lines := by
  have hall : (LineTable.ofText s).starts.countP (· ≤ p + (Shift.past s).bytes) =
      (Shift.past s).lines := by
    rw [List.countP_eq_length.2, length_starts, Shift.past]
    intro q hq
    obtain rfl | hq := List.mem_cons.1 hq
    · simp
    · have := le_of_mem_startsFrom hq
      exact decide_eq_true (by simp only [Shift.past]; omega)
  rw [LineTable.line, LineTable.line, starts_join, List.countP_append, hall, List.countP_map,
    Nat.add_comm]
  congr 2
  funext q
  simp [Shift.past]

end Source

/-! ## Words -/

/-- The tokens of a source without the end. -/
def words (source : List Char) : List Token :=
  (Lexeme.lex source).filterMap (·.token? (LineTable.ofText source))

theorem Token.Kind.keyword?_ne_eof (word : String) : keyword? word ≠ some .eof := by
  unfold keyword?
  split <;> simp

namespace Lexeme

theorem Fits.tokenKind?_ne_eof {kind : Kind} {text after : List Char} (h : Fits kind text after)
    (start : Nat) : tokenKind? ⟨kind, start, text⟩ ≠ some .eof := by
  have hops : ∀ op ∈ operators, op.2 ≠ .eof := by decide
  unfold tokenKind?
  cases h with
  | keyword _ _ _ hkey =>
    intro heof
    exact Token.Kind.keyword?_ne_eof _ (hkey.trans heof)
  | operator hop => simpa using hops _ hop
  | _ => simp

theorem token?_moved (s t : List Char) (l : Lexeme) :
    (l.moved (Shift.past s).bytes).token? (LineTable.ofText (s ++ '\n' :: t)) =
      (l.token? (LineTable.ofText t)).map (·.moved (.past s)) := by
  have hkind : (l.moved (Shift.past s).bytes).tokenKind? = l.tokenKind? := rfl
  have hliteral : (l.moved (Shift.past s).bytes).literal? = l.literal? := rfl
  have hline := line_join_right s t l.start
  unfold token?
  rw [hkind]
  cases l.tokenKind? with
  | none => rfl
  | some kind => simp [Token.moved, moved, span, hline, Nat.add_right_comm, ← hliteral]

theorem error?_moved (s t : List Char) (l : Lexeme) :
    (l.moved (Shift.past s).bytes).error? (LineTable.ofText (s ++ '\n' :: t)) =
      (l.error? (LineTable.ofText t)).map (·.moved (.past s)) := by
  have hfault : (l.moved (Shift.past s).bytes).fault? = l.fault? := rfl
  have hline := line_join_right s t l.start
  unfold error?
  rw [hfault]
  cases l.fault? with
  | none => rfl
  | some fault => simp [SyntaxError.moved, moved, hline, Nat.add_right_comm]

theorem isEnd_of_mem_words {source : List Char} {t : Token} (h : t ∈ words source) : ¬ t.isEnd := by
  obtain ⟨l, hl, ht⟩ := List.mem_filterMap.1 h
  obtain ⟨before, after, -, -, hfits⟩ := (cuts_lexFrom 0 source).decomposes.placed l hl
  obtain ⟨kind, hkind, rfl⟩ := Option.map_eq_some_iff.1 ht
  have hne := hfits.tokenKind?_ne_eof l.start
  rw [hkind] at hne
  simpa [Token.isEnd] using hne

end Lexeme

theorem tokens_ofText (source : List Char) :
    (Scan.ofText source).tokens = words source ++
      [Token.endAt ((LineTable.ofText source).line (byteLength source)) (byteLength source)] := rfl

theorem beforeEnd_ofText (source : List Char) :
    beforeEnd (Scan.ofText source).tokens = words source := by
  rw [beforeEnd, tokens_ofText,
    List.takeWhile_append_of_pos fun t ht => by simpa using Lexeme.isEnd_of_mem_words ht]
  exact List.append_nil _

theorem errors_ofText_eq_nil_iff {source : List Char} :
    (Scan.ofText source).errors = [] ↔ ∀ l ∈ Lexeme.lex source, l.fault? = none := by
  simp [Scan.ofText, Lexeme.error?]

theorem Lexeme.fault?_eq_none {l : Lexeme} (h : l.tokenKind?.isSome) : l.fault? = none := by
  unfold tokenKind? at h
  unfold fault?
  cases hkind : l.kind <;> simp_all

theorem errors_ofText_eq_nil {source : List Char}
    (h : (Lexeme.lex source).all (·.tokenKind?.isSome)) : (Scan.ofText source).errors = [] :=
  errors_ofText_eq_nil_iff.2 fun l hl => Lexeme.fault?_eq_none (List.all_eq_true.1 h l hl)

/-! ## Both sources -/

/-- No string and no comment is open at the end of the source. -/
def Closed (source : List Char) : Prop :=
  ∀ e ∈ (Scan.ofText source).errors, e.cause ≠ .unterminatedString ∧ e.cause ≠ .unterminatedComment

theorem closed_of_errors_eq_nil {source : List Char} (h : (Scan.ofText source).errors = []) :
    Closed source := by
  simp [Closed, h]

theorem Closed.kind {source : List Char} (h : Closed source) :
    ∀ l ∈ Lexeme.lex source, l.kind.Closed := by
  intro l hl
  -- An open lexeme would be an error of its own cause.
  have herror {cause : SyntaxError.Cause} {n : Nat} (hfault : l.fault? = some (cause, n)) :
      cause ≠ .unterminatedString ∧ cause ≠ .unterminatedComment :=
    h _ (List.mem_filterMap.2 ⟨l, hl, by rw [Lexeme.error?, hfault]; rfl⟩)
  constructor
  · intro hkind
    exact (herror (by rw [Lexeme.fault?, hkind])).1 rfl
  · intro hkind
    exact (herror (by rw [Lexeme.fault?, hkind])).2 rfl

theorem line_join_start {s : List Char} {l : Lexeme} (hl : l ∈ Lexeme.lex s) (t : List Char) :
    (LineTable.ofText (s ++ '\n' :: t)).line l.start = (LineTable.ofText s).line l.start := by
  obtain ⟨before, after, hsource, hstart, -⟩ := (Lexeme.cuts_lexFrom 0 s).decomposes.placed l hl
  apply line_join_left
  have hstart : l.start = 0 + byteLength before := hstart
  rw [hsource, byteLength_append, byteLength_append]
  omega

theorem words_join {s : List Char} (hs : Closed s) (t : List Char) :
    words (s ++ '\n' :: t) = words s ++ (words t).map (·.moved (.past s)) := by
  rw [words, Lexeme.lex_join hs.kind, List.filterMap_append]
  congr 1
  · refine List.filterMap_congr fun l hl => ?_
    rw [Lexeme.token?, Lexeme.token?, line_join_start hl]
  · rw [words, List.filterMap_map, List.map_filterMap]
    congr 1
    funext l
    exact l.token?_moved s t

theorem errors_join {s : List Char} (hs : Closed s) (t : List Char) :
    (Scan.ofText (s ++ '\n' :: t)).errors =
      (Scan.ofText s).errors ++ (Scan.ofText t).errors.map (·.moved (.past s)) := by
  simp only [Scan.ofText]
  rw [Lexeme.lex_join hs.kind, List.filterMap_append]
  congr 1
  · refine List.filterMap_congr fun l hl => ?_
    rw [Lexeme.error?, Lexeme.error?, line_join_start hl]
  · rw [List.filterMap_map, List.map_filterMap]
    congr 1
    funext l
    exact l.error?_moved s t

theorem tokens_join {s : List Char} (hs : Closed s) (t : List Char) :
    (Scan.ofText (s ++ '\n' :: t)).tokens =
      words s ++ (Scan.ofText t).tokens.map (·.moved (.past s)) := by
  have hstop : byteLength (s ++ '\n' :: t) = byteLength t + (Shift.past s).bytes := by
    have hsize : '\n'.utf8Size = 1 := rfl
    simp only [byteLength_append, byteLength_cons, hsize, Shift.past]
    omega
  rw [tokens_ofText, tokens_ofText, words_join hs, List.map_append, List.append_assoc, hstop,
    line_join_right]
  rfl

/-- Scanning goes line by line, if no string and no comment is open at the end of the first source.
-/
theorem scan_join_lines {s : String} (hs : ∀ e ∈ (scan s).errors,
    e.cause ≠ .unterminatedString ∧ e.cause ≠ .unterminatedComment) (t : String) :
    (scan (s ++ "\n" ++ t)).tokens =
      beforeEnd (scan s).tokens ++ (scan t).tokens.map (·.moved (.past s.toList)) ∧
    (scan (s ++ "\n" ++ t)).errors =
      (scan s).errors ++ (scan t).errors.map (·.moved (.past s.toList)) := by
  have htext : (s ++ "\n" ++ t).toList = s.toList ++ '\n' :: t.toList := by simp
  have hclosed : Closed s.toList := hs
  simp only [scan, htext]
  rw [beforeEnd_ofText]
  exact ⟨tokens_join hclosed t.toList, errors_join hclosed t.toList⟩

/-- A point that the next line could go on with, a character of no lexeme, and a string that is open
only in the second source. -/
theorem scan_join_lines_point :
    (∀ e ∈ (scan "@ 1.").errors,
      e.cause ≠ .unterminatedString ∧ e.cause ≠ .unterminatedComment) ∧
    (scan "@ 1.\n5 \"").tokens.map (fun t => (t.kind, t.lexeme, t.line, t.span)) =
      [(.number, "1", 1, ⟨2, 3⟩), (.dot, ".", 1, ⟨3, 4⟩), (.number, "5", 2, ⟨5, 6⟩),
        (.eof, "", 2, ⟨8, 8⟩)] ∧
    (scan "@ 1.\n5 \"").errors =
      [⟨.unexpectedCharacter, 1, none, ⟨0, 1⟩⟩, ⟨.unterminatedString, 2, none, ⟨7, 8⟩⟩] := by
  have hclosed : ∀ e ∈ (scan "@ 1.").errors,
      e.cause ≠ .unterminatedString ∧ e.cause ≠ .unterminatedComment := by decide +kernel
  obtain ⟨htokens, herrors⟩ := scan_join_lines hclosed "5 \""
  refine ⟨hclosed, ?_, ?_⟩
  · rw [show "@ 1.\n5 \"" = "@ 1." ++ "\n" ++ "5 \"" from rfl, htokens]
    decide +kernel
  · rw [show "@ 1.\n5 \"" = "@ 1." ++ "\n" ++ "5 \"" from rfl, herrors]
    decide +kernel

end Treewalk
