import Treewalk.Proofs.Lexeme.Delimited
import Treewalk.Proofs.Lexeme.Places
import Treewalk.Proofs.Number.RoundTrip

/-!
# Every lexeme accounted for

Each lexeme of a source is one token, one error, or a comment that is dropped. Tokens and errors
keep the order of the lexemes, and each says where its lexeme begins.
-/

namespace Treewalk

open Source

/-! ## Tokens -/

/-- The token has the text and the line of its span. It has a literal if it is a string, the text
between the quotes, or a number, the double nearest to what the digits mean. -/
structure Token.Describes (t : Token) (source : String) : Prop where
  shows : Shows source t.span t.lexeme
  line_eq : t.line = 1 + newlinesBefore t.span.start source.toList
  string : t.kind = .string →
    ∃ body, t.lexeme = "\"" ++ body ++ "\"" ∧ t.literal = some (.string body)
  number : t.kind = .number → ∃ whole fraction,
    t.lexeme.toList = Number.numeral whole fraction ∧ whole ≠ [] ∧ (∀ c ∈ whole, c.isDigit) ∧
    (∀ c ∈ fraction, c.isDigit) ∧ t.literal = some (.number (.ofBits (Number.nearest
      (Number.digitsValue (whole ++ fraction)) (10 ^ fraction.length)).toUInt64))
  other : t.kind ≠ .string → t.kind ≠ .number → t.literal = none

namespace Lexeme

theorem Fits.ne_value {kind : Token.Kind} {text after : List Char}
    (h : Fits (.token kind) text after) : kind ≠ .string ∧ kind ≠ .number := by
  have hops : ∀ op ∈ operators, op.2 ≠ .string ∧ op.2 ≠ .number := by decide
  cases h with
  | keyword _ _ _ hkey =>
    unfold Token.Kind.keyword? at hkey
    split at hkey <;> cases hkey <;> decide
  | operator hop => exact hops _ hop

theorem Fits.exists_numeral {text after : List Char} (h : Fits .number text after) :
    ∃ whole fraction, text = Number.numeral whole fraction ∧ whole ≠ [] ∧
      (∀ c ∈ whole, c.isDigit) ∧ ∀ c ∈ fraction, c.isDigit := by
  cases h with
  | @whole c more _ hc hmore =>
    exact ⟨c :: more, [], rfl, by simp, by simpa [hc] using hmore, by simp⟩
  | @fraction c more d digits _ hc hmore hd hdigits =>
    exact ⟨c :: more, d :: digits, rfl, by simp, by simpa [hc] using hmore,
      by simpa [hd] using hdigits⟩

theorem Fits.exists_body {text after : List Char} (h : Fits .string text after) :
    ∃ body, text = '"' :: (body ++ ['"']) := by
  cases h with
  | string => exact ⟨_, rfl⟩

end Lexeme

theorem describes_of_mem_words {source : String} {t : Token} (h : t ∈ words source.toList) :
    t.Describes source := by
  obtain ⟨hshows, hline⟩ := shows_of_mem_words h
  rw [line_ofText] at hline
  obtain ⟨kind, text, after, hfits, hkind, hlexeme, hliteral⟩ := spelled_of_mem_words h
  cases kind with
  | token kind =>
    obtain ⟨hstring, hnumber⟩ := hfits.ne_value
    obtain rfl := Option.some.inj hkind
    exact ⟨hshows, hline, fun ht => absurd ht hstring, fun ht => absurd ht hnumber,
      fun _ _ => hliteral⟩
  | identifier =>
    have hkind := Option.some.inj hkind
    refine ⟨hshows, hline, fun ht => ?_, fun ht => ?_, fun _ _ => hliteral⟩
    · cases hkind.trans ht
    · cases hkind.trans ht
  | number =>
    have hkind := Option.some.inj hkind
    have htext : t.lexeme.toList = text := by rw [hlexeme, String.toList_ofList]
    obtain ⟨whole, fraction, hnumeral, hne, hwhole, hfraction⟩ := hfits.exists_numeral
    refine ⟨hshows, hline, fun ht => ?_, fun _ => ⟨whole, fraction, htext.trans hnumeral, hne,
      hwhole, hfraction, ?_⟩, fun _ ht => absurd hkind.symm ht⟩
    · cases hkind.trans ht
    · simp only [hliteral, Lexeme.literal?, Number.read, hnumeral,
        Number.splitPoint_numeral hwhole]
      rfl
  | string =>
    obtain ⟨body, rfl⟩ := hfits.exists_body
    have hkind := Option.some.inj hkind
    refine ⟨hshows, hline, fun _ => ⟨.ofList body, ?_, ?_⟩, fun ht => ?_,
      fun ht => absurd hkind.symm ht⟩
    · rw [hlexeme, ← String.toList_inj]
      simp
    · rw [hliteral]
      simp [Lexeme.literal?]
    · cases hkind.trans ht
  | _ => cases hkind

/-! ## Each lexeme -/

/-- Lexemes of this kind are tokens of that kind. -/
inductive Lexeme.Kind.Gives : Lexeme.Kind → Token.Kind → Prop
  | token (kind) : Gives (.token kind) kind
  | number : Gives .number .number
  | string : Gives .string .string
  | identifier : Gives .identifier .identifier

/-- The error stands at the front of a lexeme, at the text that shows the fault. -/
structure SyntaxError.Marks (e : SyntaxError) (source : String) (l : Lexeme) : Prop where
  shows : ∃ mark, l.kind.Faults e.cause mark ∧ Shows source e.span mark ∧
    e.span = ⟨l.span.start, l.span.start + mark.utf8ByteSize⟩
  line_eq : e.line = 1 + newlinesBefore l.span.start source.toList
  location_eq : e.location = none

/-- `Accounts source ls ts es`: in order, each of the lexemes `ls` is one of the tokens `ts`, one of
the errors `es`, or a comment. -/
inductive Accounts (source : String) :
    List Lexeme → List Token → List SyntaxError → Prop
  | done : Accounts source [] [] []
  | token {l t ls ts es} : l.kind.Gives t.kind → t.span = l.span → Accounts source ls ts es →
    Accounts source (l :: ls) (t :: ts) es
  | error {l e ls ts es} : e.Marks source l → Accounts source ls ts es →
    Accounts source (l :: ls) ts (e :: es)
  | comment {l ls ts es} : l.kind = .comment → Accounts source ls ts es →
    Accounts source (l :: ls) ts es

theorem Lexeme.gives_of_token? {lines : LineTable} {l : Lexeme} {t : Token}
    (h : l.token? lines = some t) : l.kind.Gives t.kind ∧ t.span = l.span := by
  obtain ⟨kind, hkind, rfl⟩ := Option.map_eq_some_iff.1 h
  refine ⟨?_, rfl⟩
  unfold tokenKind? at hkind
  cases hl : l.kind <;> simp only [hl] at hkind <;> cases hkind <;> constructor

theorem marks_of_error? {source : String} {l : Lexeme} {e : SyntaxError}
    (hl : l ∈ Lexeme.lex source.toList)
    (he : l.error? (LineTable.ofText source.toList) = some e) : e.Marks source l := by
  obtain ⟨mark, hfaults, hshows, hstart, hline⟩ := shows_of_error? hl he
  refine ⟨⟨mark, hfaults, hshows, ?_⟩, by rw [hline, line_ofText, hstart], ?_⟩
  · obtain ⟨before, after, -, hbefore, hstop⟩ := hshows
    rw [String.utf8ByteSize_append, ← hbefore] at hstop
    rw [← hstart, ← hstop]
  · obtain ⟨_, -, rfl⟩ := Option.map_eq_some_iff.1 he
    rfl

theorem Lexeme.eq_comment {lines : LineTable} {l : Lexeme} (ht : l.token? lines = none)
    (he : l.error? lines = none) : l.kind = .comment := by
  have ht := Option.map_eq_none_iff.1 ht
  have he := Option.map_eq_none_iff.1 he
  unfold tokenKind? at ht
  unfold fault? at he
  cases hl : l.kind <;> simp_all

theorem accounts_of_subset {source : String} {ls : List Lexeme}
    (h : ls ⊆ Lexeme.lex source.toList) :
    Accounts source ls (ls.filterMap (·.token? (LineTable.ofText source.toList)))
      (ls.filterMap (·.error? (LineTable.ofText source.toList))) := by
  induction ls with
  | nil => exact .done
  | cons l ls ih =>
    obtain ⟨hl, hls⟩ := List.cons_subset.1 h
    cases ht : l.token? (LineTable.ofText source.toList) with
    | some t =>
      -- What is a token has no fault.
      obtain ⟨kind, hkind, -⟩ := Option.map_eq_some_iff.1 ht
      have he : l.error? (LineTable.ofText source.toList) = none := by
        rw [Lexeme.error?, Lexeme.fault?_eq_none (by rw [hkind]; rfl)]
        rfl
      obtain ⟨hgives, hspan⟩ := Lexeme.gives_of_token? ht
      rw [List.filterMap_cons_some ht, List.filterMap_cons_none he]
      exact .token hgives hspan (ih hls)
    | none =>
      rw [List.filterMap_cons_none ht]
      cases he : l.error? (LineTable.ofText source.toList) with
      | some e =>
        rw [List.filterMap_cons_some he]
        exact .error (marks_of_error? hl he) (ih hls)
      | none =>
        rw [List.filterMap_cons_none he]
        exact .comment (Lexeme.eq_comment ht he) (ih hls)

/-! ## Order -/

theorem starts_increase (source : String) :
    (scan source).tokens.Pairwise fun t u => t.span.start < u.span.start := by
  have hlex := (Lexeme.cuts_lexFrom 0 source.toList).decomposes
  rw [tokens_scan, words, List.pairwise_append]
  refine ⟨?_, List.pairwise_singleton _ _, fun t ht u hu => ?_⟩
  · refine List.pairwise_filterMap.2 (hlex.ordered.imp_of_mem fun {l m} hl _ hle t ht u hu => ?_)
    have hnonempty := hlex.nonempty l hl
    rw [(Lexeme.gives_of_token? ht).2, (Lexeme.gives_of_token? hu).2]
    omega
  · obtain rfl := List.mem_singleton.1 hu
    obtain ⟨l, hl, ht⟩ := List.mem_filterMap.1 ht
    have hnonempty := hlex.nonempty l hl
    obtain ⟨⟨before, after, hsource, hstart, hstop⟩, -⟩ := shows_of_token? hl ht
    rw [(Lexeme.gives_of_token? ht).2] at hstop ⊢
    have hsize : source.utf8ByteSize = l.span.stop + after.utf8ByteSize := by
      rw [hstop, ← String.utf8ByteSize_append, ← hsource]
    simp only [Token.endAt]
    omega

/-- Only the last lexeme can be open, since it goes to the end of the source. -/
theorem Lexeme.Cuts.open_last {offset : Nat} {text : List Char} {ls : List Lexeme}
    (h : Cuts offset text ls) :
    ls.Pairwise fun l _ => l.kind ≠ .unterminatedString ∧ l.kind ≠ .unterminatedComment := by
  induction h with
  | done => exact .nil
  | blank _ _ ih => exact ih
  | @lexeme offset kind text after ls hfits hrest ih =>
    refine List.pairwise_cons.2 ⟨fun m hm => ?_, ih⟩
    -- An open lexeme has nothing after it.
    have hclosed : after ≠ [] := by
      rintro rfl
      rw [← lexFrom_of_cuts hrest, lexFrom] at hm
      cases hm
    constructor
    · rintro rfl
      cases hfits
      exact hclosed rfl
    · rintro rfl
      cases hfits
      exact hclosed rfl

theorem Lexeme.Kind.Faults.not_open {kind : Lexeme.Kind} {cause : SyntaxError.Cause} {mark : String}
    (h : kind.Faults cause mark) (hstring : kind ≠ .unterminatedString)
    (hcomment : kind ≠ .unterminatedComment) :
    cause ≠ .unterminatedString ∧ cause ≠ .unterminatedComment := by
  cases h with
  | character => simp
  | string => exact absurd rfl hstring
  | comment => exact absurd rfl hcomment

theorem open_error_last (source : String) : (scan source).errors.Pairwise fun e _ =>
    e.cause ≠ .unterminatedString ∧ e.cause ≠ .unterminatedComment := by
  have hopen := (Lexeme.cuts_lexFrom 0 source.toList).open_last
  refine List.pairwise_filterMap.2 (hopen.imp_of_mem fun {l m} hl _ hkind e he f _ => ?_)
  obtain ⟨⟨mark, hfaults, -⟩, -⟩ := marks_of_error? hl he
  exact hfaults.not_open hkind.1 hkind.2

/-- The lexemes of a source are its tokens, its errors and the comments that are dropped, each in
order. An error of an open string or comment is the last. -/
theorem scan_accounts_for_lexemes (source : String) : ∃ ts,
    (scan source).tokens = ts ++ [{
      kind := .eof
      lexeme := ""
      literal := none
      line := 1 + source.toList.count '\n'
      span := ⟨source.utf8ByteSize, source.utf8ByteSize⟩ }] ∧
    (∀ t ∈ ts, t.kind ≠ .eof ∧ t.Describes source) ∧
    ((scan source).tokens.Pairwise fun t u => t.span.start < u.span.start) ∧
    Accounts source (Lexeme.lex source.toList) ts (scan source).errors ∧
    (scan source).errors.Pairwise fun e _ =>
      e.cause ≠ .unterminatedString ∧ e.cause ≠ .unterminatedComment := by
  refine ⟨words source.toList, ?_, fun t ht => ⟨?_, describes_of_mem_words ht⟩,
    starts_increase source, accounts_of_subset (List.Subset.refl _), open_error_last source⟩
  · have hcount := newlinesBefore_byteLength source.toList []
    rw [List.append_nil, byteLength_toList] at hcount
    rw [tokens_scan, line_ofText, hcount]
    rfl
  · simpa [Token.isEnd] using Lexeme.isEnd_of_mem_words ht

end Treewalk
