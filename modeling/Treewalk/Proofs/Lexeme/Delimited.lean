import Treewalk.Proofs.Lexeme.Joining

/-!
# Texts between delimiters

A token ends where a blank or a closing parenthesis follows. So the tokens of a text that is built
from words, blanks and parentheses are those of its parts.
-/

namespace Treewalk

open Source

namespace Lexeme

def Delimited (after : List Char) : Prop := ∀ c ∈ after.head?, c = ' ' ∨ c = ')'

theorem delimited_blank (after : List Char) : Delimited (' ' :: after) := by
  simp [Delimited]

theorem delimited_paren (after : List Char) : Delimited (')' :: after) := by
  simp [Delimited]

theorem Fits.before_other {kind : Kind} {text after rest : List Char} (h : Fits kind text after)
    (htoken : (tokenKind? ⟨kind, 0, text⟩).isSome)
    (hrest : ∀ c ∈ rest.head?, c ∈ after.head? ∨ c = ' ' ∨ c = ')')
    (hpoint : ∀ d more, rest = '.' :: d :: more → d.isDigit → ∃ more', after = '.' :: d :: more') :
    Fits kind text rest := by
  have hhead : ∀ {p : Char → Prop}, (∀ c ∈ after.head?, p c) → p ' ' → p ')' →
      ∀ c ∈ rest.head?, p c := by
    intro p hafter hblank hparen c hc
    obtain hc | rfl | rfl := hrest c hc
    · exact hafter c hc
    · exact hblank
    · exact hparen
  cases h with
  | whole hc hmore hafter hdigit =>
    refine .whole hc hmore (hhead hafter (by decide) (by decide)) fun d more hd hd' => ?_
    obtain ⟨more', hmore'⟩ := hpoint d more hd hd'
    exact hdigit d more' hmore' hd'
  | fraction hc hmore hd hdigits hafter =>
    exact .fraction hc hmore hd hdigits (hhead hafter (by decide) (by decide))
  | string hbody => exact .string hbody
  | keyword hc hmore hafter hkey =>
    exact .keyword hc hmore (hhead hafter (by decide) (by decide)) hkey
  | identifier hc hmore hafter hkey =>
    exact .identifier hc hmore (hhead hafter (by decide) (by decide)) hkey
  | operator hop hafter =>
    refine .operator hop fun c d hc => ?_
    exact hhead (fun d hd => hafter c d hc hd) (by simp [extends?]) (by simp [extends?]) d
  | _ => simp [tokenKind?] at htoken

theorem Fits.before_delimiter {kind : Kind} {text after rest : List Char} (h : Fits kind text after)
    (htoken : (tokenKind? ⟨kind, 0, text⟩).isSome) (hrest : Delimited rest) :
    Fits kind text rest := by
  refine h.before_other htoken (fun c hc => .inr (hrest c hc)) fun d more hd => ?_
  have hpoint := hrest '.' (by simp [hd])
  exact absurd hpoint (by decide)

end Lexeme

/-! ## Tokens -/

/-- The token says what a lexeme of this kind and text says. -/
structure Token.Spells (t : Token) (k : Lexeme.Kind) (text : List Char) : Prop where
  kind : Lexeme.tokenKind? ⟨k, 0, text⟩ = some t.kind
  lexeme : t.lexeme = .ofList text
  literal : t.literal = Lexeme.literal? ⟨k, 0, text⟩

/-- The token is a whole word of the language, as it can stand in a source. -/
def Token.Spelled (t : Token) : Prop :=
  ∃ kind text after, Lexeme.Fits kind text after ∧ t.Spells kind text

theorem Lexeme.spells_of_token? {lines : LineTable} {kind : Lexeme.Kind} {start : Nat}
    {text : List Char} {t : Token} (h : token? lines ⟨kind, start, text⟩ = some t) :
    t.Spells kind text := by
  obtain ⟨_, hkind, rfl⟩ := Option.map_eq_some_iff.1 h
  exact ⟨hkind, rfl, rfl⟩

theorem spelled_of_mem_words {source : List Char} {t : Token} (h : t ∈ words source) :
    t.Spelled := by
  obtain ⟨⟨kind, start, text⟩, hl, ht⟩ := List.mem_filterMap.1 h
  obtain ⟨before, after, -, -, hfits⟩ := (Lexeme.cuts_lexFrom 0 source).decomposes.placed _ hl
  exact ⟨kind, text, after, hfits, Lexeme.spells_of_token? ht⟩

namespace Lexeme

/-! ## Texts -/

/-- Before a delimiter, a text that begins at `offset` is the lexemes `ls`. -/
structure Splits (offset : Nat) (text : List Char) (ls : List Lexeme) : Prop where
  cuts : ∀ {after ms}, Delimited after → Cuts (offset + byteLength text) after ms →
    Cuts offset (text ++ after) (ls ++ ms)
  faultless : ∀ l ∈ ls, l.fault? = none

theorem splits_fits {kind : Kind} {text : List Char}
    (htoken : (tokenKind? ⟨kind, 0, text⟩).isSome)
    (h : ∀ after, Delimited after → Fits kind text after) (offset : Nat) :
    Splits offset text [⟨kind, offset, text⟩] where
  cuts hafter hcuts := .lexeme (h _ hafter) hcuts
  faultless := by
    intro l hl
    obtain rfl := List.mem_singleton.1 hl
    exact fault?_eq_none htoken

theorem fits_leftParen (after : List Char) : Fits (.token .leftParen) ['('] after := by
  refine .operator (by simp [operators]) fun c d hc hd => ?_
  obtain rfl : '(' = c := by simpa using hc
  simp [extends?]

theorem fits_rightParen (after : List Char) : Fits (.token .rightParen) [')'] after := by
  refine .operator (by simp [operators]) fun c d hc hd => ?_
  obtain rfl : ')' = c := by simpa using hc
  simp [extends?]

theorem fits_word {kind : Kind} {c : Char} {more : List Char} (hc : startsWord c)
    (hmore : more.all inWord) (hkind : wordKind (c :: more) = kind) : Fits kind (c :: more) [] := by
  unfold wordKind at hkind
  split at hkind <;> subst hkind
  · exact .keyword hc (List.all_eq_true.1 hmore) (by simp) ‹_›
  · exact .identifier hc (List.all_eq_true.1 hmore) (by simp) ‹_›

theorem Splits.blank {offset : Nat} {s t : List Char} {ls ms : List Lexeme}
    (hs : Splits offset s ls) (ht : Splits (offset + byteLength s + 1) t ms) :
    Splits offset (s ++ ' ' :: t) (ls ++ ms) where
  cuts {after ks} hafter hcuts := by
    have hsize : byteLength (' ' :: t) = 1 + byteLength t := byteLength_cons ..
    rw [byteLength_append, hsize, ← Nat.add_assoc, ← Nat.add_assoc] at hcuts
    rw [List.append_assoc, List.append_assoc, List.cons_append]
    exact hs.cuts (delimited_blank _) (.blank rfl (ht.cuts hafter hcuts))
  faultless l hl := (List.mem_append.1 hl).elim (hs.faultless l) (ht.faultless l)

theorem Splits.parens {offset : Nat} {s : List Char} {ls : List Lexeme}
    (hs : Splits (offset + 1) s ls) : Splits offset ('(' :: s ++ [')'])
      (⟨.token .leftParen, offset, ['(']⟩ :: ls ++
        [⟨.token .rightParen, offset + 1 + byteLength s, [')']⟩]) where
  cuts {after ks} hafter hcuts := by
    have hopen : byteLength ('(' :: (s ++ [')'])) = 1 + byteLength (s ++ [')']) :=
      byteLength_cons ..
    rw [List.cons_append, hopen, byteLength_append, ← Nat.add_assoc, ← Nat.add_assoc] at hcuts
    have hclose := Cuts.lexeme (fits_rightParen after) hcuts
    have hinner := hs.cuts (delimited_paren _) hclose
    have hwhole := Cuts.lexeme (fits_leftParen _) hinner
    simpa using hwhole
  faultless l hl := by
    simp only [List.cons_append, List.mem_cons, List.mem_append, List.not_mem_nil, or_false] at hl
    rcases hl with rfl | hl | rfl
    · rfl
    · exact hs.faultless l hl
    · rfl

variable {s t text : List Char} {P Q : List Token → Prop}

/-- Before a delimiter, the text has no faults and its tokens have the property, wherever it
begins. -/
def Lexes (text : List Char) (P : List Token → Prop) : Prop :=
  ∀ offset, ∃ ls, Splits offset text ls ∧ ∀ lines, P (ls.filterMap (·.token? lines))

theorem Lexes.mono (h : Lexes text P) (hPQ : ∀ ts, P ts → Q ts) : Lexes text Q := by
  intro offset
  obtain ⟨ls, hsplits, hP⟩ := h offset
  exact ⟨ls, hsplits, fun lines => hPQ _ (hP lines)⟩

theorem Lexes.blank (hs : Lexes s P) (ht : Lexes t Q) :
    Lexes (s ++ ' ' :: t) fun ts => ∃ us vs, ts = us ++ vs ∧ P us ∧ Q vs := by
  intro offset
  obtain ⟨ls, hls, hP⟩ := hs offset
  obtain ⟨ms, hms, hQ⟩ := ht (offset + byteLength s + 1)
  refine ⟨ls ++ ms, hls.blank hms, fun lines => ?_⟩
  exact ⟨_, _, List.filterMap_append, hP lines, hQ lines⟩

theorem Lexes.parens (hs : Lexes s P) :
    Lexes ('(' :: s ++ [')']) fun ts => ∃ o us c, ts = o :: us ++ [c] ∧ o.kind = .leftParen ∧
      c.kind = .rightParen ∧ P us := by
  intro offset
  obtain ⟨ls, hls, hP⟩ := hs (offset + 1)
  refine ⟨_, hls.parens, fun lines => ?_⟩
  have htoken : ∀ k start text, token? lines ⟨.token k, start, text⟩ =
      some ⟨k, .ofList text, none, lines.line start, span ⟨.token k, start, text⟩⟩ :=
    fun _ _ _ => rfl
  rw [List.cons_append, List.filterMap_cons_some (htoken ..), List.filterMap_append,
    List.filterMap_cons_some (htoken ..)]
  exact ⟨_, _, _, rfl, rfl, rfl, hP lines⟩

theorem lexes_fits {kind : Kind} {after : List Char} (h : Fits kind text after)
    (htoken : (tokenKind? ⟨kind, 0, text⟩).isSome) :
    Lexes text fun ts => ∃ t, ts = [t] ∧ t.Spells kind text := by
  intro offset
  obtain ⟨k, hk⟩ := Option.isSome_iff_exists.1 htoken
  refine ⟨_, splits_fits htoken (fun _ => h.before_delimiter htoken) offset, fun lines => ?_⟩
  cases ht : token? lines ⟨kind, offset, text⟩ with
  | none =>
    have hnone := Option.map_eq_none_iff.1 ht
    cases hk.symm.trans hnone
  | some t => exact ⟨t, by simp [ht], spells_of_token? ht⟩

theorem Lexes.words (h : Lexes text P) : (Scan.ofText text).errors = [] ∧ P (words text) := by
  obtain ⟨ls, hls, hP⟩ := h 0
  have hcuts := @Splits.cuts _ _ _ hls [] [] (by simp [Delimited]) .done
  rw [List.append_nil, List.append_nil] at hcuts
  have hlex : lex text = ls := lexFrom_of_cuts hcuts
  refine ⟨errors_ofText_eq_nil_iff.2 ?_, ?_⟩
  · rw [hlex]
    exact hls.faultless
  · rw [Treewalk.words, hlex]
    exact hP _

end Lexeme

end Treewalk
