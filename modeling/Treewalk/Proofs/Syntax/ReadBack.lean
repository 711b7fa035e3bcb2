import Treewalk.Proofs.Lexeme.Delimited
import Treewalk.Proofs.Number.RoundTrip
import Treewalk.Proofs.Syntax.Expressions
import Treewalk.Proofs.Syntax.PrefixForm
import Treewalk.Proofs.Syntax.Relocation
import Treewalk.Syntax.Printer

/-!
# Printed trees read back

Every token of a tree that comes from a text is a word of that text, so it is the same word again
where it is printed. Numbers are the exception: they are shown anew, and infinity as a name.
-/

namespace Treewalk

open Lexeme (Lexes Fits)

/-! ## Trees without places -/

def Token.bare (t : Token) : Token := { t with line := 0, span := ⟨0, 0⟩ }

/-- A token without a value and without a place. -/
def Token.word (kind : Token.Kind) (lexeme : String) : Token :=
  { kind, lexeme, line := 0, span := ⟨0, 0⟩ }

def Expr.bare (e : Expr) : Expr := e.mapTokens .bare

theorem Token.kind_eq_of_bare {s t : Token} (h : s.bare = t.bare) : s.kind = t.kind :=
  show s.bare.kind = t.bare.kind from congrArg _ h

theorem Token.Spells.bare_eq {s t : Token} {kind : Lexeme.Kind} {text : List Char}
    (hs : s.Spells kind text) (ht : t.Spells kind text) : s.bare = t.bare := by
  have hkind : s.kind = t.kind := Option.some.inj (hs.kind.symm.trans ht.kind)
  simp [bare, hkind, hs.lexeme, ht.lexeme, hs.literal, ht.literal]

def Number.isInfinite (x : Float) : Bool :=
  match form x with
  | .infinite _ => true
  | _ => false

namespace Expr

def hasInfinity : Expr → Bool
  | literal (.number x) => Number.isInfinite x
  | literal _ | var _ => false
  | grouping inner => inner.hasInfinity
  | unary _ _ operand => operand.hasInfinity
  | binary _ _ left right => left.hasInfinity || right.hasInfinity
  | logical _ _ left right => left.hasInfinity || right.hasInfinity
  | assign _ value => value.hasInfinity

/-- What the printed form of a tree says. An infinite number is a name there. -/
def reread : Expr → Expr
  | literal (.number x) =>
    if Number.isInfinite x then var (.word .identifier "Infinity") else literal (.number x)
  | literal v => literal v
  | grouping inner => grouping inner.reread
  | unary op t operand => unary op t.bare operand.reread
  | binary op t left right => binary op t.bare left.reread right.reread
  | logical op t left right => logical op t.bare left.reread right.reread
  | var name => var name.bare
  | assign name value => assign name.bare value.reread

theorem reread_eq_bare_iff (e : Expr) : e.reread = e.bare ↔ ¬ e.hasInfinity := by
  unfold bare
  induction e with
  | literal v =>
    cases v with
    | number x => simp only [reread, mapTokens, hasInfinity]; split <;> simp_all
    | _ => simp [reread, mapTokens, hasInfinity]
  | grouping _ ih | unary _ _ _ ih | assign _ _ ih => simp [reread, mapTokens, hasInfinity, ih]
  | binary _ _ _ _ ihl ihr | logical _ _ _ _ ihl ihr =>
    simp [reread, mapTokens, hasInfinity, ihl, ihr]
  | var => simp [reread, mapTokens, hasInfinity]

end Expr

/-! ## Trees made of words -/

inductive Expr.Spelled : Expr → Prop
  | token {t e} : t.Spelled → ofToken? t = some e → Spelled e
  | grouping {e} : Spelled e → Spelled (.grouping e)
  | unary {op t e} : t.Spelled → t.kind = UnaryOp.kind op → Spelled e → Spelled (.unary op t e)
  | binary {op t left right} : t.Spelled → t.kind = BinaryOp.kind op → Spelled left →
    Spelled right → Spelled (.binary op t left right)
  | logical {op t left right} : t.Spelled → t.kind = LogicalOp.kind op → Spelled left →
    Spelled right → Spelled (.logical op t left right)
  | assign {name e} : name.Spelled → name.kind = .identifier → Spelled e → Spelled (.assign name e)

theorem PrefixForm.spelled {ts : List Token} {e : Expr} (h : PrefixForm ts e)
    (hts : ∀ t ∈ ts, t.Spelled) : e.Spelled := by
  induction h with
  | token he => exact .token (hts _ (by simp)) he
  | group _ _ _ _ ih => exact .grouping (ih fun t ht => hts t (by simp [ht]))
  | unary _ hk _ _ ih => exact .unary (hts _ (by simp)) hk (ih fun t ht => hts t (by simp [ht]))
  | binary _ hk _ _ _ ihl ihr =>
    exact .binary (hts _ (by simp)) hk (ihl fun t ht => hts t (by simp [ht]))
      (ihr fun t ht => hts t (by simp [ht]))
  | logical _ hk _ _ _ ihl ihr =>
    exact .logical (hts _ (by simp)) hk (ihl fun t ht => hts t (by simp [ht]))
      (ihr fun t ht => hts t (by simp [ht]))
  | assign _ _ hname _ _ ih =>
    exact .assign (hts _ (by simp)) hname (ih fun t ht => hts t (by simp [ht]))

namespace Grammar

/-- What stands left is made of words. -/
def Symbol.Spelled : Symbol → Prop
  | .more _ left => left.Spelled
  | _ => True

theorem Level.spelled_operand (l : Level) : l.operand.Spelled := by
  cases l <;> trivial

theorem Level.spelled_node {l : Level} {t : Token} {node : Token → Expr → Expr → Expr}
    (h : l.node? t.kind = some node) (ht : t.Spelled) {left right : Expr} (hl : left.Spelled)
    (hr : right.Spelled) : (node t left right).Spelled := by
  unfold Level.node? at h
  split at h <;> cases h
  case h_1 hk => exact .logical ht hk hl hr
  case h_2 hk => exact .logical ht hk hl hr
  all_goals exact .binary ht ‹_› hl hr

theorem Derives.spelled {rules : Rules} {symbol : Symbol} {ts bad : List Token} {e : Expr}
    (h : Derives rules symbol ts e bad) (hts : ∀ t ∈ ts, t.Spelled) (hs : symbol.Spelled) :
    e.Spelled := by
  induction h with
  | falseWord hk | trueWord hk | nilWord hk | name hk =>
    exact .token (hts _ List.mem_cons_self) (by simp [Expr.ofToken?, hk])
  | number hk => exact .token (hts _ (by simp)) (Parser.ofToken?_literal (.inl hk))
  | string hk => exact .token (hts _ (by simp)) (Parser.ofToken?_literal (.inr hk))
  | group _ _ _ ih => exact .grouping (ih (fun t ht => hts t (by simp [ht])) trivial)
  | unary hk _ ih =>
    exact .unary (hts _ (by simp)) hk (ih (fun t ht => hts t (by simp [ht])) trivial)
  | primary _ ih | operand _ ih => exact ih hts trivial
  | @level l _ _ _ _ _ _ _ _ ih ih' =>
    have hfirst := ih (fun t ht => hts t (by simp [ht])) l.spelled_operand
    exact ih' (fun t ht => hts t (by simp [ht])) hfirst
  | done => exact hs
  | @more l _ _ _ _ _ _ _ _ _ hn _ _ ih ih' =>
    have hright := ih (fun t ht => hts t (by simp [ht])) l.spelled_operand
    exact ih' (fun t ht => hts t (by simp [ht]))
      (Level.spelled_node hn (hts _ (by simp)) hs hright)
  | assign hname _ _ ih =>
    exact .assign (hts _ (by simp)) hname (ih (fun t ht => hts t (by simp [ht])) trivial)
  | badAssign _ _ _ _ _ ih => exact ih (fun t ht => hts t (by simp [ht])) trivial

end Grammar

theorem spelled_of_readExpr {text : String} {e : Expr} (h : readExpr text = .ok e) : e.Spelled := by
  obtain ⟨-, hform⟩ := readExpr_eq_ok_iff.1 h
  rw [scan, beforeEnd_ofText] at hform
  exact hform.spelled fun t => spelled_of_mem_words

theorem spelled_of_parseExpression {source : String} {e : Expr}
    (h : parseExpression (scan source).tokens = .ok e) : e.Spelled := by
  obtain ⟨bad, hderives⟩ := Parser.derives_of_parseExpression h
  rw [scan, beforeEnd_ofText] at hderives
  exact hderives.spelled (fun t => spelled_of_mem_words) trivial

/-! ## Words read back -/

theorem Token.Spelled.lexes {t : Token} (h : t.Spelled) :
    Lexes t.lexeme.toList fun ts => ∃ t', ts = [t'] ∧ t'.bare = t.bare := by
  obtain ⟨kind, text, after, hfits, hspells⟩ := h
  rw [hspells.lexeme, String.toList_ofList]
  refine (Lexeme.lexes_fits hfits (by simp [hspells.kind])).mono ?_
  rintro _ ⟨t', rfl, hspells'⟩
  exact ⟨t', rfl, hspells'.bare_eq hspells⟩

/-! ## Parts of a form -/

theorem toList_form (head : String) (parts : List String) :
    (form head parts).toList =
      '(' :: (head.toList ++ parts.flatMap fun part => ' ' :: part.toList) ++ [')'] := by
  have htail :
      (formTail parts).toList = (parts.flatMap fun part => ' ' :: part.toList) ++ [')'] := by
    induction parts with
    | nil => rfl
    | cons part parts ih => simp [formTail, String.toList_append, ih]
  simp [form, String.toList_append, htail]

theorem Lexeme.Lexes.parts {parts : List String} {Qs : List (List Token → Prop)}
    (h : List.Forall₂ (fun part Q => Lexes part.toList Q) parts Qs) :
    ∀ {text : List Char} {P : List Token → Prop}, Lexes text P →
      Lexes (text ++ parts.flatMap fun part => ' ' :: part.toList) fun ts => ∃ us vss,
        ts = us ++ vss.flatten ∧ P us ∧ List.Forall₂ (fun Q vs => Q vs) Qs vss := by
  induction h with
  | nil =>
    intro text P htext
    rw [List.flatMap_nil, List.append_nil]
    exact htext.mono fun ts hts => ⟨ts, [], by simp, hts, .nil⟩
  | @cons part Q parts Qs hpart _ ih =>
    intro text P htext
    rw [List.flatMap_cons, ← List.append_assoc]
    refine (ih (htext.blank hpart)).mono ?_
    rintro _ ⟨_, vss, rfl, ⟨us, vs, rfl, hus, hvs⟩, hvss⟩
    exact ⟨us, vs :: vss, by simp, hus, .cons hvs hvss⟩

theorem lexes_form {t : Token} {parts : List String} {Qs : List (List Token → Prop)}
    (ht : t.Spelled) (hparts : List.Forall₂ (fun part Q => Lexes part.toList Q) parts Qs) :
    Lexes (form t.lexeme parts).toList fun ts => ∃ o head vss c,
      ts = o :: (head :: vss.flatten) ++ [c] ∧ o.kind = .leftParen ∧ head.bare = t.bare ∧
      List.Forall₂ (fun Q vs => Q vs) Qs vss ∧ c.kind = .rightParen := by
  rw [toList_form]
  refine (Lexes.parts hparts ht.lexes).parens.mono ?_
  rintro _ ⟨o, _, c, rfl, ho, hc, _, vss, rfl, ⟨head, rfl, hbare⟩, hvss⟩
  exact ⟨o, head, vss, c, rfl, ho, hbare, hvss, hc⟩

/-! ## Trees read back -/

/-- The printed form is read as what the tree is without places, but for infinite numbers. -/
def Expr.ReadsBack (e : Expr) : Prop :=
  Lexes e.print.toList fun ts => ∃ e', PrefixForm ts e' ∧ e'.bare = e.reread

namespace Expr

theorem readsBack_of_fits {e : Expr} {kind : Lexeme.Kind} {text after : List Char}
    (hfits : Fits kind text after) (hprint : e.print.toList = text)
    (h : ∀ t : Token, t.Spells kind text → ∃ e', ofToken? t = some e' ∧ e'.bare = e.reread)
    (htoken : (Lexeme.tokenKind? ⟨kind, 0, text⟩).isSome) : e.ReadsBack := by
  unfold ReadsBack
  rw [hprint]
  refine (Lexeme.lexes_fits hfits htoken).mono ?_
  rintro _ ⟨t, rfl, hspells⟩
  obtain ⟨e', he', hbare⟩ := h t hspells
  exact ⟨e', .token he', hbare⟩

theorem readsBack_keyword {v : Value} {kind : Token.Kind} {text : List Char}
    (hfits : Fits (.token kind) text []) (hprint : v.print.toList = text)
    (hof : ∀ t : Token, t.kind = kind → ofToken? t = some (literal v))
    (hv : (literal v).reread = literal v) : (literal v).ReadsBack := by
  refine readsBack_of_fits hfits hprint (fun t ht => ⟨literal v, hof t ?_, hv.symm⟩) rfl
  exact (Option.some.inj ht.kind).symm

theorem readsBack_nil : (literal .nil).ReadsBack := by
  have hfits : Fits (.token .nilKw) ['n', 'i', 'l'] [] :=
    Lexeme.fits_word (by decide) (by decide) (by decide)
  exact readsBack_keyword hfits (by decide) (fun t ht => by simp [ofToken?, ht]) rfl

theorem readsBack_bool (b : Bool) : (literal (.bool b)).ReadsBack := by
  have htrue : Fits (.token .trueKw) ['t', 'r', 'u', 'e'] [] :=
    Lexeme.fits_word (by decide) (by decide) (by decide)
  have hfalse : Fits (.token .falseKw) ['f', 'a', 'l', 's', 'e'] [] :=
    Lexeme.fits_word (by decide) (by decide) (by decide)
  cases b with
  | true => exact readsBack_keyword htrue (by decide) (fun t ht => by simp [ofToken?, ht]) rfl
  | false => exact readsBack_keyword hfalse (by decide) (fun t ht => by simp [ofToken?, ht]) rfl

theorem readsBack_string {body : List Char} (h : '"' ∉ body) :
    (literal (.string (.ofList body))).ReadsBack := by
  have hfits : Fits .string ('"' :: (body ++ ['"'])) [] := .string h
  refine readsBack_of_fits hfits ?_ (fun t ht => ⟨literal (.string (.ofList body)), ?_, rfl⟩) rfl
  · simp [print, Value.print, String.toList_append]
  · have hkind : t.kind = .string := (Option.some.inj ht.kind).symm
    have hliteral : t.literal = some (.string (.ofList body)) := by
      simp [ht.literal, Lexeme.literal?]
    simp [ofToken?, hkind, hliteral]

theorem fits_numeral {whole fraction : List Char} {num den : Nat}
    (h : Number.Writes whole fraction num den) :
    Fits .number (Number.numeral whole fraction) [] := by
  obtain ⟨c, more, rfl⟩ := List.exists_cons_of_ne_nil h.ne_nil
  have hc := h.isDigit_whole c List.mem_cons_self
  have hmore : ∀ d ∈ more, d.isDigit := fun d hd => h.isDigit_whole d (List.mem_cons_of_mem _ hd)
  cases fraction with
  | nil => exact .whole hc hmore (by simp) (by simp)
  | cons d fraction =>
    have hd := h.isDigit_fraction d List.mem_cons_self
    exact .fraction hc hmore hd (fun e he => h.isDigit_fraction e (List.mem_cons_of_mem _ he))
      (by simp)

theorem readsBack_finite {pattern : Nat} (h : pattern < Number.infinityPattern) :
    (literal (.number (.ofBits pattern.toUInt64))).ReadsBack := by
  obtain ⟨whole, fraction, num, den, hwrites, hdisplay, hread⟩ := Number.read_displayMagnitude h
  have hform := Number.form_ofBits h
  refine readsBack_of_fits (fits_numeral hwrites) ?_
    (fun t ht => ⟨literal (.number (.ofBits pattern.toUInt64)), ?_, ?_⟩) rfl
  · simp [print, Value.print, Value.display, Number.display, hform, Number.signed, hdisplay]
  · have hkind : t.kind = .number := (Option.some.inj ht.kind).symm
    have hliteral : t.literal = some (.number (.ofBits pattern.toUInt64)) := by
      rw [ht.literal, ← hread]
      rfl
    simp [ofToken?, hkind, hliteral]
  · simp [bare, mapTokens, reread, Number.isInfinite, hform]

/-- Infinity is shown as a word that is not reserved. -/
theorem readsBack_infinity :
    (literal (.number (.ofBits Number.infinityPattern.toUInt64))).ReadsBack := by
  have hform := Number.form_infinity
  have hfits : Fits .identifier "Infinity".toList [] :=
    Lexeme.fits_word (by decide) (by decide) (by decide)
  refine readsBack_of_fits hfits ?_ (fun t ht => ⟨var t, ?_, ?_⟩) rfl
  · simp [print, Value.print, Value.display, Number.display, hform, Number.signed]
  · have hkind : t.kind = .identifier := (Option.some.inj ht.kind).symm
    simp [ofToken?, hkind]
  · have hbare := ht.bare_eq (⟨rfl, rfl, rfl⟩ : (Token.word .identifier "Infinity").Spells _ _)
    simp only [bare, mapTokens, reread, Number.isInfinite, hform, hbare]
    rfl

theorem readsBack_number (text : List Char) :
    (literal (.number (Number.read text))).ReadsBack := by
  unfold Number.read
  dsimp only
  generalize hpattern : Number.nearest _ _ = pattern
  have hle : pattern ≤ Number.infinityPattern := hpattern ▸ Nat.min_le_left _ _
  rcases Nat.lt_or_eq_of_le hle with h | h
  · exact readsBack_finite h
  · exact h ▸ readsBack_infinity

/-! ## Trees read back -/

theorem readsBack_of_token {t : Token} {e : Expr} (ht : t.Spelled) (he : ofToken? t = some e) :
    e.ReadsBack := by
  have hvar : t.kind = .identifier → (var t).ReadsBack := by
    intro hkind
    refine ht.lexes.mono ?_
    rintro _ ⟨t', rfl, hbare⟩
    have hkind' := (Token.kind_eq_of_bare hbare).trans hkind
    exact ⟨var t', .token (by simp [ofToken?, hkind']), by simp [bare, mapTokens, reread, hbare]⟩
  have hliteral : (literal (Grammar.literalValue t.literal)).ReadsBack := by
    obtain ⟨kind, text, after, hfits, hspells⟩ := ht
    rw [hspells.literal]
    cases hfits with
    | whole | fraction => exact readsBack_number _
    | @string body _ hbody =>
      have hinner : (('"' :: (body ++ ['"'])).drop 1).dropLast = body := by simp
      simp only [Lexeme.literal?, hinner]
      exact readsBack_string hbody
    | _ => exact readsBack_nil
  have hderives := Parser.derives_of_ofToken? he
  generalize hts : [t] = ts at hderives
  cases hderives with
  | falseWord => exact readsBack_bool false
  | trueWord => exact readsBack_bool true
  | nilWord => exact readsBack_nil
  | number | string =>
    obtain rfl := List.singleton_inj.1 hts
    exact hliteral
  | name hkind =>
    obtain rfl := List.singleton_inj.1 hts
    exact hvar hkind
  | group => simp at hts

theorem lexes_operand {t : Token} {e : Expr} (ht : t.Spelled) (he : e.ReadsBack) :
    Lexes (form t.lexeme [e.print]).toList fun ts => ∃ o t' us c e', ts = o :: t' :: us ++ [c] ∧
      o.kind = .leftParen ∧ t'.bare = t.bare ∧ PrefixForm us e' ∧ e'.bare = e.reread ∧
      c.kind = .rightParen := by
  refine (lexes_form ht (.cons he .nil)).mono ?_
  rintro _ ⟨o, t', _, c, rfl, ho, hbare, _ | ⟨⟨e', hform, hbare'⟩, _ | _⟩, hc⟩
  exact ⟨o, t', _, c, e', by simp, ho, hbare, hform, hbare', hc⟩

theorem lexes_operands {t : Token} {left right : Expr} (ht : t.Spelled) (hl : left.ReadsBack)
    (hr : right.ReadsBack) :
    Lexes (form t.lexeme [left.print, right.print]).toList fun ts => ∃ o t' us vs c left' right',
      ts = o :: t' :: (us ++ vs) ++ [c] ∧ o.kind = .leftParen ∧ t'.bare = t.bare ∧
      PrefixForm us left' ∧ left'.bare = left.reread ∧ PrefixForm vs right' ∧
      right'.bare = right.reread ∧ c.kind = .rightParen := by
  refine (lexes_form ht (.cons hl (.cons hr .nil))).mono ?_
  rintro _ ⟨o, t', _, c, rfl, ho, hbare,
    _ | ⟨⟨left', hleft, hbare'⟩, _ | ⟨⟨right', hright, hbare''⟩, _ | _⟩⟩, hc⟩
  exact ⟨o, t', _, _, c, left', right', by simp, ho, hbare, hleft, hbare', hright, hbare'', hc⟩

theorem readsBack_grouping {e : Expr} (he : e.ReadsBack) : (grouping e).ReadsBack := by
  have hfits : Fits .identifier "group".toList [] :=
    Lexeme.fits_word (by decide) (by decide) (by decide)
  have hword : (Token.word .identifier "group").Spelled := ⟨_, _, _, hfits, rfl, rfl, rfl⟩
  refine (lexes_operand hword he).mono ?_
  rintro _ ⟨o, head, us, c, e', rfl, ho, hbare, hform, hbare', hc⟩
  have hgroup : Reader.isGroup head := by
    have hkind : head.kind = .identifier := Token.kind_eq_of_bare hbare
    have hlexeme : head.bare.lexeme = "group" := congrArg Token.lexeme hbare
    simp [Reader.isGroup, hkind, show head.lexeme = "group" from hlexeme]
  refine ⟨grouping e', .group ho hgroup hform hc, ?_⟩
  rw [reread, ← hbare']
  rfl

theorem readsBack_assign {name : Token} {e : Expr} (hname : name.Spelled)
    (hkind : name.kind = .identifier) (he : e.ReadsBack) : (assign name e).ReadsBack := by
  have hfits : Fits (.token .equal) ['='] [] := .operator (by simp [Lexeme.operators]) (by simp)
  have hword : (Token.word .equal "=").Spelled := ⟨_, _, _, hfits, rfl, rfl, rfl⟩
  refine (lexes_form hword (.cons hname.lexes (.cons he .nil))).mono ?_
  rintro _ ⟨o, head, _, c, rfl, ho, hbare,
    _ | ⟨⟨name', rfl, hbare'⟩, _ | ⟨⟨e', hform, hbare''⟩, _ | _⟩⟩, hc⟩
  have hequal : head.kind = .equal := Token.kind_eq_of_bare hbare
  have hkind' := (Token.kind_eq_of_bare hbare').trans hkind
  refine ⟨assign name' e', by simpa using PrefixForm.assign ho hequal hkind' hform hc, ?_⟩
  rw [reread, ← hbare', ← hbare'']
  rfl

theorem Spelled.readsBack {e : Expr} (h : e.Spelled) : e.ReadsBack := by
  induction h with
  | token ht he => exact readsBack_of_token ht he
  | grouping _ ih => exact readsBack_grouping ih
  | @unary op t e ht hk _ ih =>
    refine (lexes_operand ht ih).mono ?_
    rintro _ ⟨o, t', us, c, e', rfl, ho, hbare, hform, hbare', hc⟩
    have hk' := (Token.kind_eq_of_bare hbare).trans hk
    refine ⟨.unary op t' e', .unary ho hk' hform hc, ?_⟩
    rw [reread, ← hbare, ← hbare']
    rfl
  | @binary op t left right ht hk _ _ ihl ihr =>
    refine (lexes_operands ht ihl ihr).mono ?_
    rintro _ ⟨o, t', us, vs, c, left', right', rfl, ho, hbare, hleft, hl, hright, hr, hc⟩
    have hk' := (Token.kind_eq_of_bare hbare).trans hk
    refine ⟨.binary op t' left' right', .binary ho hk' hleft hright hc, ?_⟩
    rw [reread, ← hbare, ← hl, ← hr]
    rfl
  | @logical op t left right ht hk _ _ ihl ihr =>
    refine (lexes_operands ht ihl ihr).mono ?_
    rintro _ ⟨o, t', us, vs, c, left', right', rfl, ho, hbare, hleft, hl, hright, hr, hc⟩
    have hk' := (Token.kind_eq_of_bare hbare).trans hk
    refine ⟨.logical op t' left' right', .logical ho hk' hleft hright hc, ?_⟩
    rw [reread, ← hbare, ← hl, ← hr]
    rfl
  | assign hname hk _ ih => exact readsBack_assign hname hk ih

end Expr

/-- A tree that comes from a text can be printed and read again. An infinite number comes back as a
name. -/
theorem readExpr_print {e : Expr}
    (h : (∃ source, parseExpression (scan source).tokens = .ok e) ∨
      ∃ text, readExpr text = .ok e) :
    ∃ e', readExpr e.print = .ok e' ∧ e'.bare = e.reread ∧ (e'.bare = e.bare ↔ ¬ e.hasInfinity) := by
  have hspelled : e.Spelled := by
    rcases h with ⟨source, h⟩ | ⟨text, h⟩
    · exact spelled_of_parseExpression h
    · exact spelled_of_readExpr h
  obtain ⟨herrors, e', hform, hbare⟩ := hspelled.readsBack.words
  refine ⟨e', readExpr_eq_ok_iff.2 ⟨herrors, ?_⟩, hbare, ?_⟩
  · rw [scan, beforeEnd_ofText]
    exact hform
  · rw [hbare]
    exact e.reread_eq_bare_iff

theorem readExpr_print_minus : ∃ e e',
    parseExpression (scan "-(x - group) == \"//\"").tokens = .ok e ∧
      readExpr e.print = .ok e' ∧ e'.bare = e.bare := by
  have hfinite : (parseExpression (scan "-(x - group) == \"//\"").tokens).toOption.any
      (!·.hasInfinity) := by
    rw [scan, tokens_ofText]
    cbv
  cases he : parseExpression (scan "-(x - group) == \"//\"").tokens with
  | error errors => simp [he, Except.toOption] at hfinite
  | ok e =>
    obtain ⟨e', he', -, hiff⟩ := readExpr_print (.inl ⟨_, he⟩)
    have hno : ¬ e.hasInfinity := by simpa [he, Except.toOption] using hfinite
    exact ⟨e, e', rfl, he', hiff.2 hno⟩

end Treewalk
