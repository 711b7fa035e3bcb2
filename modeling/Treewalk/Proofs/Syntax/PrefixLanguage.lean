import Treewalk.Proofs.Lexeme.Accounts
import Treewalk.Proofs.Syntax.ReadBack

/-!
# The language of printed forms

`IsForm` says by the kinds of the tokens alone which lists the reader accepts. The tree that it
reads is enough to know the tokens again, but for where they stand and how a number is spelled. So
printing the tree gives the words of the text back.
-/

namespace Treewalk

open Token (Kind)

/-! ## Forms -/

/-- A name by itself may be `group` too. As a head it is the only name, and told by its spelling. -/
inductive IsForm : List Token → Prop
  | atom {t} : t.kind ∈ [.nilKw, .trueKw, .falseKw, .number, .string, .identifier] → IsForm [t]
  | group {o head c ts} : o.kind = .leftParen → head.kind = .identifier → head.lexeme = "group" →
    IsForm ts → c.kind = .rightParen → IsForm (o :: head :: ts ++ [c])
  | assign {o head name c ts} : o.kind = .leftParen → head.kind = .equal →
    name.kind = .identifier → IsForm ts → c.kind = .rightParen →
    IsForm (o :: head :: name :: ts ++ [c])
  | one {o head c ts} : o.kind = .leftParen → head.kind ∈ [.bang, .minus] → IsForm ts →
    c.kind = .rightParen → IsForm (o :: head :: ts ++ [c])
  | two {o head c ts us} : o.kind = .leftParen →
    head.kind ∈ [.andKw, .orKw, .minus, .plus, .star, .slash, .equalEqual, .bangEqual, .greater,
      .greaterEqual, .less, .lessEqual] →
    IsForm ts → IsForm us → c.kind = .rightParen → IsForm (o :: head :: (ts ++ us) ++ [c])

theorem exists_ofToken?_iff {t : Token} : (∃ e, Expr.ofToken? t = some e) ↔
    t.kind ∈ [.nilKw, .trueKw, .falseKw, .number, .string, .identifier] := by
  rw [← Option.isSome_iff_exists]
  unfold Expr.ofToken?
  split
  case h_4 hk => split <;> simp [hk]
  case h_5 hk => split <;> simp [hk]
  all_goals simp_all

theorem exists_unaryOp_iff {kind : Kind} :
    (∃ op : UnaryOp, kind = op.kind) ↔ kind ∈ [.bang, .minus] := by
  constructor
  · rintro ⟨op, rfl⟩
    cases op <;> decide
  · intro h
    have hall : ∀ kind ∈ [Kind.bang, .minus], ∃ op ∈ UnaryOp.all, kind = op.kind := by decide
    obtain ⟨op, -, hop⟩ := hall kind h
    exact ⟨op, hop⟩

theorem exists_binaryOp_iff {kind : Kind} :
    ((∃ op : LogicalOp, kind = op.kind) ∨ ∃ op : BinaryOp, kind = op.kind) ↔
      kind ∈ [.andKw, .orKw, .minus, .plus, .star, .slash, .equalEqual, .bangEqual, .greater,
        .greaterEqual, .less, .lessEqual] := by
  constructor
  · rintro (⟨op, rfl⟩ | ⟨op, rfl⟩) <;> cases op <;> decide
  · intro h
    have hall : ∀ kind ∈ [Kind.andKw, .orKw, .minus, .plus, .star, .slash, .equalEqual, .bangEqual,
        .greater, .greaterEqual, .less, .lessEqual],
        (∃ op ∈ LogicalOp.all, kind = op.kind) ∨ ∃ op ∈ BinaryOp.all, kind = op.kind := by decide
    exact (hall kind h).imp (fun ⟨op, _, hop⟩ => ⟨op, hop⟩) fun ⟨op, _, hop⟩ => ⟨op, hop⟩

theorem isForm_iff {ts : List Token} : IsForm ts ↔ ∃ e, PrefixForm ts e := by
  constructor
  · intro h
    induction h with
    | atom hk =>
      obtain ⟨e, he⟩ := exists_ofToken?_iff.2 hk
      exact ⟨e, .token he⟩
    | group ho hkind hlexeme _ hc ih =>
      obtain ⟨e, he⟩ := ih
      exact ⟨_, .group ho (by simp [Reader.isGroup, hkind, hlexeme]) he hc⟩
    | assign ho hk hname _ hc ih =>
      obtain ⟨e, he⟩ := ih
      exact ⟨_, .assign ho hk hname he hc⟩
    | one ho hk _ hc ih =>
      obtain ⟨e, he⟩ := ih
      obtain ⟨op, hop⟩ := exists_unaryOp_iff.2 hk
      exact ⟨_, .unary ho hop he hc⟩
    | two ho hk _ _ hc ihl ihr =>
      obtain ⟨left, hl⟩ := ihl
      obtain ⟨right, hr⟩ := ihr
      rcases exists_binaryOp_iff.2 hk with ⟨op, hop⟩ | ⟨op, hop⟩
      · exact ⟨_, .logical ho hop hl hr hc⟩
      · exact ⟨_, .binary ho hop hl hr hc⟩
  · rintro ⟨e, h⟩
    induction h with
    | token he => exact .atom (exists_ofToken?_iff.1 ⟨_, he⟩)
    | group ho hgroup _ hc ih =>
      simp only [Reader.isGroup, Bool.and_eq_true, decide_eq_true_eq] at hgroup
      exact .group ho hgroup.1 hgroup.2 ih hc
    | unary ho hk _ hc ih => exact .one ho (exists_unaryOp_iff.1 ⟨_, hk⟩) ih hc
    | binary ho hk _ _ hc ihl ihr =>
      exact .two ho (exists_binaryOp_iff.1 (.inr ⟨_, hk⟩)) ihl ihr hc
    | logical ho hk _ _ hc ihl ihr =>
      exact .two ho (exists_binaryOp_iff.1 (.inl ⟨_, hk⟩)) ihl ihr hc
    | assign ho hk hname _ hc ih => exact .assign ho hk hname ih hc

/-! ## Words by their kinds -/

theorem Token.Kind.keyword?_inj {s t : String} {kind : Kind} (hs : keyword? s = some kind)
    (ht : keyword? t = some kind) : s = t := by
  unfold keyword? at hs
  split at hs <;> cases hs <;> unfold keyword? at ht <;> split at ht <;> first | rfl | cases ht

namespace Lexeme

theorem keyword?_ne_operator {s : String} {kind : Token.Kind}
    (h : Token.Kind.keyword? s = some kind) : ∀ op ∈ operators, op.2 ≠ kind := by
  unfold Token.Kind.keyword? at h
  split at h <;> cases h <;> decide

theorem Fits.text_eq {kind : Token.Kind} {text after text' after' : List Char}
    (h : Fits (.token kind) text after) (h' : Fits (.token kind) text' after') : text = text' := by
  have hops : ∀ a ∈ operators, ∀ b ∈ operators, a.2 = b.2 → a.1 = b.1 := by decide
  cases h with
  | keyword _ _ _ hkey =>
    cases h' with
    | keyword _ _ _ hkey' => exact String.ofList_injective (Token.Kind.keyword?_inj hkey hkey')
    | operator hop' => exact absurd rfl (keyword?_ne_operator hkey _ hop')
  | operator hop =>
    cases h' with
    | keyword _ _ _ hkey' => exact absurd rfl (keyword?_ne_operator hkey' _ hop)
    | operator hop' => exact hops _ hop _ hop' rfl

end Lexeme

namespace Token

variable {s t : Token}

theorem Spelled.bare_eq (hs : s.Spelled) (ht : t.Spelled) (hkind : s.kind = t.kind)
    (hother : t.kind ∉ [.identifier, .string, .number]) : s.bare = t.bare := by
  have htoken {u : Token} {kind : Lexeme.Kind} {text : List Char} (hu : u.Spells kind text)
      (hother : u.kind ∉ [.identifier, .string, .number]) : kind = .token u.kind := by
    have hk := hu.kind
    unfold Lexeme.tokenKind? at hk
    split at hk <;> simp_all
  obtain ⟨kind, text, after, hfits, hspells⟩ := hs
  obtain ⟨kind', text', after', hfits', hspells'⟩ := ht
  obtain rfl := htoken hspells (hkind ▸ hother)
  obtain rfl := htoken hspells' hother
  rw [hkind] at hfits hspells
  obtain rfl := hfits.text_eq hfits'
  exact hspells.bare_eq hspells'

theorem Spelled.string (ht : t.Spelled) (hkind : t.kind = .string) :
    ∃ body, t.lexeme = "\"" ++ body ++ "\"" ∧ t.literal = some (.string body) := by
  obtain ⟨kind, text, after, hfits, hk, hlexeme, hliteral⟩ := ht
  rw [hkind] at hk
  cases kind with
  | string =>
    obtain ⟨body, rfl⟩ := hfits.exists_body
    refine ⟨.ofList body, ?_, ?_⟩
    · rw [hlexeme, ← String.toList_inj]
      simp
    · rw [hliteral]
      simp [Lexeme.literal?]
  | token kind => exact absurd (Option.some.inj hk) hfits.ne_value.1
  | _ => cases hk

theorem Spelled.number (ht : t.Spelled) (hkind : t.kind = .number) :
    ∃ x, t.literal = some (.number x) := by
  obtain ⟨kind, text, after, hfits, hk, hlexeme, hliteral⟩ := ht
  rw [hkind] at hk
  cases kind with
  | number => exact ⟨_, hliteral⟩
  | token kind => exact absurd (Option.some.inj hk) hfits.ne_value.2
  | _ => cases hk

theorem Spelled.literal_eq_none (ht : t.Spelled) (hstring : t.kind ≠ .string)
    (hnumber : t.kind ≠ .number) : t.literal = none := by
  obtain ⟨kind, text, after, -, hk, -, hliteral⟩ := ht
  rw [hliteral]
  cases kind with
  | string => exact absurd (Option.some.inj hk).symm hstring
  | number => exact absurd (Option.some.inj hk).symm hnumber
  | _ => rfl

/-- What a token says, less its place and the spelling of a number. -/
def said (t : Token) : Token :=
  { t.bare with lexeme := if t.kind = .number then "" else t.lexeme }

theorem said_of_bare (h : s.bare = t.bare) : s.said = t.said := by
  have hkind := kind_eq_of_bare h
  have hlexeme : s.lexeme = t.lexeme := show s.bare.lexeme = t.bare.lexeme from congrArg _ h
  rw [said, said, h, hkind, hlexeme]

theorem Spelled.said_eq {kind : Kind} {lexeme : String} (ht : t.Spelled) (hkind : t.kind = kind)
    (hword : (Token.word kind lexeme).Spelled) (hother : kind ∉ [.identifier, .string, .number]) :
    t.said = .word kind lexeme := by
  have hsame := said_of_bare (ht.bare_eq hword hkind hother)
  have hnumber : kind ≠ .number := fun h => hother (by simp [h])
  rw [hsame]
  simp [said, word, bare, hnumber]

theorem spelled_operator {kind : Kind} {text : List Char}
    (h : (text, kind) ∈ Lexeme.operators) : (Token.word kind (.ofList text)).Spelled :=
  ⟨.token kind, text, [], .operator h (by simp), rfl, rfl, rfl⟩

theorem spelled_keyword {kind : Kind} {c : Char} {more : List Char} (hc : Lexeme.startsWord c)
    (hmore : more.all Lexeme.inWord) (hkind : Lexeme.wordKind (c :: more) = .token kind) :
    (Token.word kind (.ofList (c :: more))).Spelled :=
  ⟨.token kind, c :: more, [], Lexeme.fits_word hc hmore hkind, rfl, rfl, rfl⟩

end Token

/-! ## Words of a tree -/

def Value.word : Value → Token
  | nil => .word .nilKw "nil"
  | bool true => .word .trueKw "true"
  | bool false => .word .falseKw "false"
  | number x => { Token.word .number "" with literal := some (.number x) }
  | string s => { Token.word .string ("\"" ++ s ++ "\"") with literal := some (.string s) }

namespace Expr

def inParens (ts : List Token) : List Token :=
  .word .leftParen "(" :: ts ++ [.word .rightParen ")"]

/-- What the tokens of the printed form say. -/
def formWords : Expr → List Token
  | literal v => [v.word]
  | grouping inner => inParens (.word .identifier "group" :: inner.formWords)
  | unary _ t operand => inParens (t.said :: operand.formWords)
  | binary _ t left right => inParens (t.said :: (left.formWords ++ right.formWords))
  | logical _ t left right => inParens (t.said :: (left.formWords ++ right.formWords))
  | var name => [name.said]
  | assign name value => inParens (.word .equal "=" :: name.said :: value.formWords)

theorem formWords_bare (e : Expr) : e.bare.formWords = e.formWords := by
  unfold bare
  induction e with
  | literal v => rfl
  | grouping _ ih => simp only [mapTokens, formWords, ih]
  | unary _ t _ ih => simp only [mapTokens, formWords, ih]; rfl
  | binary _ t _ _ ihl ihr => simp only [mapTokens, formWords, ihl, ihr]; rfl
  | logical _ t _ _ ihl ihr => simp only [mapTokens, formWords, ihl, ihr]; rfl
  | var => rfl
  | assign _ _ ih => simp only [mapTokens, formWords, ih]; rfl

end Expr

theorem Token.Spelled.said_ofToken? {t : Token} {e : Expr} (ht : t.Spelled)
    (he : Expr.ofToken? t = some e) : [t.said] = e.formWords := by
  have hnil : (Token.word .nilKw "nil").Spelled :=
    Token.spelled_keyword (by decide) (by decide) (by decide)
  have htrue : (Token.word .trueKw "true").Spelled :=
    Token.spelled_keyword (by decide) (by decide) (by decide)
  have hfalse : (Token.word .falseKw "false").Spelled :=
    Token.spelled_keyword (by decide) (by decide) (by decide)
  have hderives := Parser.derives_of_ofToken? he
  generalize hts : [t] = ts at hderives
  cases hderives with
  | nilWord hk | trueWord hk | falseWord hk =>
    obtain rfl := List.singleton_inj.1 hts
    rw [ht.said_eq hk ‹_› (by decide)]
    rfl
  | number hk =>
    obtain rfl := List.singleton_inj.1 hts
    obtain ⟨x, hx⟩ := ht.number hk
    simp [hx, Grammar.literalValue, Expr.formWords, Value.word, said, bare, word, hk]
  | string hk =>
    obtain rfl := List.singleton_inj.1 hts
    obtain ⟨body, hlexeme, hliteral⟩ := ht.string hk
    simp [hliteral, hlexeme, Grammar.literalValue, Expr.formWords, Value.word, said, bare, word, hk]
  | name =>
    obtain rfl := List.singleton_inj.1 hts
    rfl
  | group => simp at hts

theorem Token.Spelled.said_group {head : Token} (h : head.Spelled) (hgroup : Reader.isGroup head) :
    head.said = .word .identifier "group" := by
  simp only [Reader.isGroup, Bool.and_eq_true, decide_eq_true_eq] at hgroup
  have hliteral := h.literal_eq_none (by simp [hgroup.1]) (by simp [hgroup.1])
  simp [said, bare, word, hgroup.1, hgroup.2, hliteral]

theorem PrefixForm.map_said {ts : List Token} {e : Expr} (h : PrefixForm ts e)
    (hts : ∀ t ∈ ts, t.Spelled) : ts.map Token.said = e.formWords := by
  have hopen : (Token.word .leftParen "(").Spelled :=
    Token.spelled_operator (by simp [Lexeme.operators])
  have hclose : (Token.word .rightParen ")").Spelled :=
    Token.spelled_operator (by simp [Lexeme.operators])
  have hequal : (Token.word .equal "=").Spelled :=
    Token.spelled_operator (by simp [Lexeme.operators])
  have hparens {o c : Token} {us : List Token} (hus : ∀ t ∈ o :: us ++ [c], t.Spelled)
      (ho : o.kind = .leftParen) (hc : c.kind = .rightParen) :
      (o :: us ++ [c]).map Token.said = Expr.inParens (us.map Token.said) := by
    have hosaid := (hus o (by simp)).said_eq ho hopen (by decide)
    have hcsaid := (hus c (by simp)).said_eq hc hclose (by decide)
    simp [Expr.inParens, hosaid, hcsaid]
  induction h with
  | token he => exact (hts _ (by simp)).said_ofToken? he
  | @group o head c ts e ho hgroup _ hc ih =>
    have hinner := ih fun t ht => hts t (by simp [ht])
    have hhead := (hts head (by simp)).said_group hgroup
    rw [hparens hts ho hc, List.map_cons, hinner, hhead]
    rfl
  | @unary o head c op ts e ho _ _ hc ih =>
    have hinner := ih fun t ht => hts t (by simp [ht])
    rw [hparens hts ho hc, List.map_cons, hinner]
    rfl
  | @binary o head c op ts us left right ho _ _ _ hc ihl ihr
  | @logical o head c op ts us left right ho _ _ _ hc ihl ihr =>
    have hleft := ihl fun t ht => hts t (by simp [ht])
    have hright := ihr fun t ht => hts t (by simp [ht])
    rw [hparens hts ho hc, List.map_cons, List.map_append, hleft, hright]
    rfl
  | @assign o head name c ts e ho hk hname _ hc ih =>
    have hinner := ih fun t ht => hts t (by simp [ht])
    have hhead := (hts head (by simp)).said_eq hk hequal (by decide)
    rw [hparens hts ho hc, List.map_cons, List.map_cons, hinner, hhead]
    rfl

/-! ## Printing gives the words back -/

/-- The same word at another place. A number may be spelled in another way that means the same. -/
structure Token.SameWord (s t : Token) : Prop where
  kind : s.kind = t.kind
  literal : s.literal = t.literal
  lexeme : s.kind ≠ .number → s.lexeme = t.lexeme

theorem Token.sameWord_of_said {s t : Token} (h : s.said = t.said) : s.SameWord t := by
  have hkind : s.kind = t.kind := show s.said.kind = t.said.kind from congrArg _ h
  refine ⟨hkind, show s.said.literal = t.said.literal from congrArg _ h, fun hs => ?_⟩
  have hlexeme : s.said.lexeme = t.said.lexeme := congrArg _ h
  simpa only [said, if_neg hs, if_neg (hkind ▸ hs)] using hlexeme

theorem sameWords_of_said {ts us : List Token} (h : ts.map Token.said = us.map Token.said) :
    List.Forall₂ Token.SameWord ts us := by
  have hsaid : List.Forall₂ Eq (ts.map Token.said) (us.map Token.said) := by
    rw [h]
    exact List.forall₂_refl _
  rw [List.forall₂_map_left_iff, List.forall₂_map_right_iff] at hsaid
  exact hsaid.imp fun _ _ => Token.sameWord_of_said

theorem said_scan {text : String} {e : Expr} (h : PrefixForm (words text.toList) e) :
    (scan text).tokens.map Token.said = e.formWords ++ [.word .eof ""] := by
  rw [tokens_scan, List.map_append, h.map_said fun t => spelled_of_mem_words]
  rfl

/-- A text is read just if it has no errors in its characters and its tokens are one form. If no
number in it is infinite, it is printed with the same words. -/
theorem readExpr_accepts_forms (text : String) :
    ((∃ e, readExpr text = .ok e) ↔
      (scan text).errors = [] ∧ IsForm (beforeEnd (scan text).tokens)) ∧
    ∀ e, readExpr text = .ok e → ¬ e.hasInfinity →
      (scan e.print).errors = [] ∧
        List.Forall₂ Token.SameWord (scan text).tokens (scan e.print).tokens := by
  constructor
  · simp only [readExpr_eq_ok_iff, isForm_iff, exists_and_left]
  · intro e hread hfinite
    have hform := (readExpr_eq_ok_iff.1 hread).2
    rw [scan, beforeEnd_ofText] at hform
    obtain ⟨herrors, e', hform', hbare⟩ := (spelled_of_readExpr hread).readsBack.words
    rw [e.reread_eq_bare_iff.2 hfinite] at hbare
    refine ⟨herrors, sameWords_of_said ?_⟩
    rw [said_scan hform, said_scan hform', ← e.formWords_bare, ← e'.formWords_bare, hbare]

theorem readExpr_accepts_forms_group : ∃ e,
    readExpr "(- (group 1.50) /* one */ group)" = .ok e ∧ ¬ e.hasInfinity ∧
      List.Forall₂ Token.SameWord (scan "(- (group 1.50) /* one */ group)").tokens
        (scan e.print).tokens := by
  have hread : (readExpr "(- (group 1.50) /* one */ group)").toOption.any (!·.hasInfinity) := by
    decide +kernel
  cases he : readExpr "(- (group 1.50) /* one */ group)" with
  | error error => simp [he, Except.toOption] at hread
  | ok e =>
    have hfinite : ¬ e.hasInfinity := by simpa [he, Except.toOption] using hread
    exact ⟨e, rfl, hfinite, ((readExpr_accepts_forms _).2 e he hfinite).2⟩

end Treewalk
