import Treewalk.Proofs.Eval.Dispatch
import Treewalk.Proofs.Syntax.PrefixLanguage
import Treewalk.Proofs.Syntax.SourceOrder

/-!
# The printed form of statements

Nothing reads the printed form of a statement, but it could be read. `StatementForm` says which
tokens are the printed form of which statement, and they tell the statement and where it ends. Since
a statement that comes from a source is printed as such tokens, two of them with the same printed
form differ in places only.
-/

namespace Treewalk

open Token (Kind)
open Lexeme (Lexes)

/-! ## Forms -/

mutual

/-- The tokens are the printed form of the statement. -/
inductive StatementForm : List Token → Stmt → Prop
  | parens {o c ts s} : o.kind = .leftParen → StatementParts ts s → c.kind = .rightParen →
    StatementForm (o :: ts ++ [c]) s

/-- The head of a form and what follows it. -/
inductive StatementParts : List Token → Stmt → Prop
  | expression {head ts e} : head.kind = .semicolon → PrefixForm ts e →
    StatementParts (head :: ts) (.expression e)
  | print {head ts e} : head.kind = .printKw → PrefixForm ts e →
    StatementParts (head :: ts) (.print head e)
  | declare {head name} : head.kind = .varKw → StatementParts [head, name] (.declare name none)
  | init {head name ts e} : head.kind = .varKw → PrefixForm ts e →
    StatementParts (head :: name :: ts) (.declare name (some e))
  | block {head ts body} : head.kind = .identifier → StatementForms ts body →
    StatementParts (head :: ts) (.block body)
  | ifThen {head ts us e yes} : head.kind = .ifKw → PrefixForm ts e → StatementForm us yes →
    StatementParts (head :: (ts ++ us)) (.ifThen e yes)
  | ifElse {head ts us vs e yes no} : head.kind = .ifKw → PrefixForm ts e →
    StatementForm us yes → StatementForm vs no →
    StatementParts (head :: (ts ++ (us ++ vs))) (.ifElse e yes no)
  | loop {head ts us e body} : head.kind = .whileKw → PrefixForm ts e → StatementForm us body →
    StatementParts (head :: (ts ++ us)) (.loop e body)

inductive StatementForms : List Token → List Stmt → Prop
  | nil : StatementForms [] []
  | cons {ts us s body} : StatementForm ts s → StatementForms us body →
    StatementForms (ts ++ us) (s :: body)

end

/-! ## A form tells its statement and its end -/

theorem PrefixForm.append_inj {ts us rest rest' : List Token} {e e' : Expr} (h : PrefixForm ts e)
    (h' : PrefixForm us e') (heq : ts ++ rest = us ++ rest') : e = e' ∧ rest = rest' := by
  have hread := Reader.accepts_of_prefixForm h (ts.length + us.length) rest (Nat.le_add_right _ _)
  have hread' :=
    Reader.accepts_of_prefixForm h' (ts.length + us.length) rest' (Nat.le_add_left _ _)
  unfold Reader.Gives at hread hread'
  rw [heq, hread'] at hread
  cases hread
  exact ⟨rfl, rfl⟩

theorem StatementForm.head {ts : List Token} {s : Stmt} (h : StatementForm ts s) :
    ∃ t us, ts = t :: us ∧ t.kind ≠ .rightParen := by
  cases h with
  | parens ho => exact ⟨_, _, rfl, by simp [ho]⟩

/-- The head of the printed form. -/
def Stmt.headWord : Stmt → Token
  | expression _ => .word .semicolon ";"
  | print _ _ => .word .printKw "scream"
  | declare _ _ => .word .varKw "var"
  | block _ => .word .identifier "block"
  | ifThen _ _ | ifElse _ _ _ => .word .ifKw "if"
  | loop _ _ => .word .whileKw "while"

theorem StatementParts.head {ts : List Token} {s : Stmt} (h : StatementParts ts s) :
    ∃ head us, ts = head :: us ∧ head.kind = s.headWord.kind := by
  cases h with
  | expression hk | print hk | declare hk | init hk | block hk | ifThen hk | ifElse hk | loop hk =>
    exact ⟨_, _, rfl, hk⟩

theorem StatementParts.headKind_eq {ts us rest rest' : List Token} {s s' : Stmt}
    (h : StatementParts ts s) (h' : StatementParts us s') (heq : ts ++ rest = us ++ rest') :
    s.headWord.kind = s'.headWord.kind := by
  obtain ⟨head, us, rfl, hk⟩ := h.head
  obtain ⟨head', us', rfl, hk'⟩ := h'.head
  rw [← hk, ← hk', (List.cons.inj heq).1]

mutual

theorem StatementForm.append_inj {ts : List Token} {s : Stmt} (h : StatementForm ts s) :
    ∀ {us rest rest' : List Token} {s' : Stmt}, StatementForm us s' →
      ts ++ rest = us ++ rest' → s = s' ∧ rest = rest' :=
  match h with
  | .parens _ hparts hc => by
    intro h' heq
    cases h' with
    | parens _ hparts' hc' =>
      simp only [List.cons_append, List.append_assoc, List.nil_append, List.cons.injEq] at heq
      obtain ⟨rfl, hrest⟩ := hparts.append_inj hparts' hc hc' heq.2
      exact ⟨rfl, (List.cons.inj hrest).2⟩

/-- What follows the parts is a closing parenthesis. So they do not go on where they could end. -/
theorem StatementParts.append_inj {ts : List Token} {s : Stmt} (h : StatementParts ts s) :
    ∀ {us rest rest' : List Token} {c c' : Token} {s' : Stmt}, StatementParts us s' →
      c.kind = .rightParen → c'.kind = .rightParen → ts ++ c :: rest = us ++ c' :: rest' →
      s = s' ∧ c :: rest = c' :: rest' :=
  match h with
  | .expression hk he => by
    intro h' hc hc' heq
    have hkind := (StatementParts.expression hk he).headKind_eq h' heq
    cases h' with
    | expression _ he' =>
      obtain ⟨rfl, hrest⟩ := he.append_inj he' (List.cons.inj heq).2
      exact ⟨rfl, hrest⟩
    | _ => cases hkind
  | .print hk he => by
    intro h' hc hc' heq
    have hkind := (StatementParts.print hk he).headKind_eq h' heq
    cases h' with
    | print _ he' =>
      simp only [List.cons_append, List.cons.injEq] at heq
      obtain ⟨rfl, heq⟩ := heq
      obtain ⟨rfl, hrest⟩ := he.append_inj he' heq
      exact ⟨rfl, hrest⟩
    | _ => cases hkind
  | .declare hk => by
    intro h' hc hc' heq
    have hkind := (StatementParts.declare hk).headKind_eq h' heq
    cases h' with
    | declare =>
      simp only [List.cons_append, List.nil_append, List.cons.injEq] at heq
      exact ⟨by rw [heq.2.1], by rw [heq.2.2.1, heq.2.2.2]⟩
    | init _ he' =>
      obtain ⟨t, vs, rfl, ht⟩ := he'.head
      simp only [List.cons_append, List.nil_append, List.cons.injEq] at heq
      exact absurd (heq.2.2.1 ▸ hc) ht
    | _ => cases hkind
  | .init hk he => by
    intro h' hc hc' heq
    have hkind := (StatementParts.init hk he).headKind_eq h' heq
    cases h' with
    | declare =>
      obtain ⟨t, vs, rfl, ht⟩ := he.head
      simp only [List.cons_append, List.nil_append, List.cons.injEq] at heq
      exact absurd (heq.2.2.1 ▸ hc') ht
    | init _ he' =>
      simp only [List.cons_append, List.cons.injEq] at heq
      obtain ⟨-, rfl, heq⟩ := heq
      obtain ⟨rfl, hrest⟩ := he.append_inj he' heq
      exact ⟨rfl, hrest⟩
    | _ => cases hkind
  | .block hk hbody => by
    intro h' hc hc' heq
    have hkind := (StatementParts.block hk hbody).headKind_eq h' heq
    cases h' with
    | block _ hbody' =>
      obtain ⟨rfl, hrest⟩ := hbody.append_inj hbody' hc hc' (List.cons.inj heq).2
      exact ⟨rfl, hrest⟩
    | _ => cases hkind
  | .ifThen hk he hyes => by
    intro h' hc hc' heq
    have hkind := (StatementParts.ifThen hk he hyes).headKind_eq h' heq
    cases h' with
    | ifThen _ he' hyes' =>
      simp only [List.cons_append, List.append_assoc, List.cons.injEq] at heq
      obtain ⟨rfl, heq⟩ := he.append_inj he' heq.2
      obtain ⟨rfl, hrest⟩ := hyes.append_inj hyes' heq
      exact ⟨rfl, hrest⟩
    | ifElse _ he' hyes' hno' =>
      obtain ⟨t, vs, rfl, ht⟩ := hno'.head
      simp only [List.cons_append, List.append_assoc, List.cons.injEq] at heq
      obtain ⟨rfl, heq⟩ := he.append_inj he' heq.2
      obtain ⟨-, heq⟩ := hyes.append_inj hyes' heq
      exact absurd ((List.cons.inj heq).1 ▸ hc) ht
    | _ => cases hkind
  | .ifElse hk he hyes hno => by
    intro h' hc hc' heq
    have hkind := (StatementParts.ifElse hk he hyes hno).headKind_eq h' heq
    cases h' with
    | ifThen _ he' hyes' =>
      obtain ⟨t, vs, rfl, ht⟩ := hno.head
      simp only [List.cons_append, List.append_assoc, List.cons.injEq] at heq
      obtain ⟨rfl, heq⟩ := he.append_inj he' heq.2
      obtain ⟨-, heq⟩ := hyes.append_inj hyes' heq
      exact absurd ((List.cons.inj heq).1 ▸ hc') ht
    | ifElse _ he' hyes' hno' =>
      simp only [List.cons_append, List.append_assoc, List.cons.injEq] at heq
      obtain ⟨rfl, heq⟩ := he.append_inj he' heq.2
      obtain ⟨rfl, heq⟩ := hyes.append_inj hyes' heq
      obtain ⟨rfl, hrest⟩ := hno.append_inj hno' heq
      exact ⟨rfl, hrest⟩
    | _ => cases hkind
  | .loop hk he hbody => by
    intro h' hc hc' heq
    have hkind := (StatementParts.loop hk he hbody).headKind_eq h' heq
    cases h' with
    | loop _ he' hbody' =>
      simp only [List.cons_append, List.append_assoc, List.cons.injEq] at heq
      obtain ⟨rfl, heq⟩ := he.append_inj he' heq.2
      obtain ⟨rfl, hrest⟩ := hbody.append_inj hbody' heq
      exact ⟨rfl, hrest⟩
    | _ => cases hkind

theorem StatementForms.append_inj {ts : List Token} {body : List Stmt}
    (h : StatementForms ts body) :
    ∀ {us rest rest' : List Token} {c c' : Token} {body' : List Stmt}, StatementForms us body' →
      c.kind = .rightParen → c'.kind = .rightParen → ts ++ c :: rest = us ++ c' :: rest' →
      body = body' ∧ c :: rest = c' :: rest' :=
  match h with
  | .nil => by
    intro h' hc hc' heq
    cases h' with
    | nil => exact ⟨rfl, heq⟩
    | cons hs' =>
      obtain ⟨t, vs, rfl, ht⟩ := hs'.head
      simp only [List.nil_append, List.cons_append, List.cons.injEq] at heq
      exact absurd (heq.1 ▸ hc) ht
  | .cons hs hbody => by
    intro h' hc hc' heq
    cases h' with
    | nil =>
      obtain ⟨t, vs, rfl, ht⟩ := hs.head
      simp only [List.nil_append, List.cons_append, List.cons.injEq] at heq
      exact absurd (heq.1 ▸ hc') ht
    | cons hs' hbody' =>
      rw [List.append_assoc, List.append_assoc] at heq
      obtain ⟨rfl, heq⟩ := hs.append_inj hs' heq
      obtain ⟨rfl, hrest⟩ := hbody.append_inj hbody' hc hc' heq
      exact ⟨rfl, hrest⟩

end

theorem StatementForm.unique {ts : List Token} {s s' : Stmt} (h : StatementForm ts s)
    (h' : StatementForm ts s') : s = s' := by
  have heq : ts ++ [] = ts ++ [] := rfl
  exact (h.append_inj h' heq).1

/-! ## What a tree of a source keeps -/

namespace Leaf

def isInfinite : Leaf → Bool
  | value (.number x) => Number.isInfinite x
  | _ => false

/-- It is kept of a word of some source, and it is no infinite number. -/
def Legible (l : Leaf) : Prop := (∃ t : Token, t.Spelled ∧ l.KeptOf t) ∧ ¬ l.isInfinite

theorem Legible.spelled {t : Token} (h : (token t).Legible) : t.Spelled := by
  obtain ⟨⟨u, hu, hkept⟩, -⟩ := h
  cases hkept
  exact hu

end Leaf

theorem Token.Denotes.ofToken? {t : Token} {v : Value} (h : t.Denotes v) :
    Expr.ofToken? t = some (.literal v) := by
  cases h with
  | nilWord hk | trueWord hk | falseWord hk => simp [Expr.ofToken?, hk]
  | number hk => exact Parser.ofToken?_literal (.inl hk)
  | string hk => exact Parser.ofToken?_literal (.inr hk)

namespace Expr

theorem hasInfinity_eq (e : Expr) : e.hasInfinity = e.leaves.any Leaf.isInfinite := by
  induction e with
  | literal v => cases v <;> simp [hasInfinity, leaves, Leaf.isInfinite]
  | grouping _ ih => exact ih
  | unary _ _ _ ih | assign _ _ ih => simp [hasInfinity, leaves, Leaf.isInfinite, ih]
  | binary _ _ _ _ ihl ihr | logical _ _ _ _ ihl ihr =>
    simp [hasInfinity, leaves, Leaf.isInfinite, ihl, ihr]
  | var => rfl

theorem spelled_of_leaves {e : Expr} (hnodes : ∀ node ∈ e.nodes, node.Tagged)
    (hleaves : ∀ l ∈ e.leaves, l.Legible) : e.Spelled := by
  induction e with
  | literal v =>
    obtain ⟨⟨t, ht, hkept⟩, -⟩ := hleaves (.value v) (by simp [leaves])
    cases hkept with
    | value hdenotes => exact .token ht hdenotes.ofToken?
  | grouping inner ih => exact .grouping (ih (List.forall_mem_cons.1 hnodes).2 hleaves)
  | unary op t operand ih =>
    obtain ⟨hnode, hnodes⟩ := List.forall_mem_cons.1 hnodes
    obtain ⟨ht, hleaves⟩ := List.forall_mem_cons.1 hleaves
    exact .unary ht.spelled hnode.1 (ih hnodes hleaves)
  | binary op t left right ihl ihr =>
    obtain ⟨hnode, hnodes⟩ := List.forall_mem_cons.1 hnodes
    obtain ⟨hnodesl, hnodesr⟩ := List.forall_mem_append.1 hnodes
    obtain ⟨hleavesl, hleaves⟩ := List.forall_mem_append.1 hleaves
    obtain ⟨ht, hleavesr⟩ := List.forall_mem_cons.1 hleaves
    exact .binary ht.spelled hnode.1 (ihl hnodesl hleavesl) (ihr hnodesr hleavesr)
  | logical op t left right ihl ihr =>
    obtain ⟨hnode, hnodes⟩ := List.forall_mem_cons.1 hnodes
    obtain ⟨hnodesl, hnodesr⟩ := List.forall_mem_append.1 hnodes
    obtain ⟨hleavesl, hleaves⟩ := List.forall_mem_append.1 hleaves
    obtain ⟨ht, hleavesr⟩ := List.forall_mem_cons.1 hleaves
    exact .logical ht.spelled hnode.1 (ihl hnodesl hleavesl) (ihr hnodesr hleavesr)
  | var name =>
    obtain ⟨hnode, -⟩ := List.forall_mem_cons.1 hnodes
    obtain ⟨ht, -⟩ := List.forall_mem_cons.1 hleaves
    have hkind : name.kind = .identifier := hnode.2
    exact .token ht.spelled (by simp [ofToken?, hkind])
  | assign name value ih =>
    obtain ⟨hnode, hnodes⟩ := List.forall_mem_cons.1 hnodes
    obtain ⟨ht, hleaves⟩ := List.forall_mem_cons.1 hleaves
    exact .assign ht.spelled hnode.2 (ih hnodes hleaves)

/-- The words of the printed form are a form of the same tree. -/
def Reprinted (e : Expr) (ts : List Token) : Prop := ∃ e', PrefixForm ts e' ∧ e'.bare = e.bare

theorem Parsed.lexes {e : Expr} (h : e.Parsed) (hleaves : ∀ l ∈ e.leaves, l.Legible) :
    Lexes e.print.toList e.Reprinted := by
  obtain ⟨ts, bad, hderives⟩ := h
  have hspelled := spelled_of_leaves (hderives.tagged trivial) hleaves
  have hfinite : ¬ e.hasInfinity := by
    rw [hasInfinity_eq, List.any_eq_true]
    rintro ⟨l, hl, hinfinite⟩
    exact (hleaves l hl).2 hinfinite
  refine hspelled.readsBack.mono ?_
  rintro us ⟨e', hform, hbare⟩
  exact ⟨e', hform, hbare.trans (e.reread_eq_bare_iff.2 hfinite)⟩

end Expr

/-! ## Statements are printed as forms -/

namespace Stmt

theorem spelled_headWord (s : Stmt) : s.headWord.Spelled := by
  cases s with
  | expression => exact Token.spelled_operator (by simp [Lexeme.operators])
  | print | declare | ifThen | ifElse | loop =>
    exact Token.spelled_keyword (by decide) (by decide) (by decide)
  | block =>
    have hfits : Lexeme.Fits .identifier "block".toList [] :=
      Lexeme.fits_word (by decide) (by decide) (by decide)
    exact ⟨_, _, _, hfits, rfl, rfl, rfl⟩

/-- The words of the printed form are a form of the same statement. -/
def Reprinted (s : Stmt) (ts : List Token) : Prop :=
  ∃ s', StatementForm ts s' ∧ s'.mapTokens .bare = s.mapTokens .bare

theorem lexes_of_parts {s : Stmt} {parts : List String} {Qs : List (List Token → Prop)}
    (hrender : s.render = form s.headWord.lexeme parts)
    (hparts : List.Forall₂ (fun part Q => Lexes part.toList Q) parts Qs)
    (h : ∀ head vss, head.bare = s.headWord.bare → List.Forall₂ (fun Q vs => Q vs) Qs vss →
      ∃ s', StatementParts (head :: vss.flatten) s' ∧ s'.mapTokens .bare = s.mapTokens .bare) :
    Lexes s.render.toList s.Reprinted := by
  rw [hrender]
  refine (lexes_form s.spelled_headWord hparts).mono ?_
  rintro _ ⟨o, head, vss, c, rfl, ho, hbare, hvss, hc⟩
  obtain ⟨s', hs', hsame⟩ := h head vss hbare hvss
  exact ⟨s', .parens ho hs' hc, hsame⟩

theorem forall₂_renderAll {body : List Stmt} (h : ∀ s ∈ body, Lexes s.render.toList s.Reprinted) :
    List.Forall₂ (fun part Q => Lexes part.toList Q) (renderAll body) (body.map Reprinted) := by
  induction body with
  | nil => exact .nil
  | cons s body ih =>
    obtain ⟨hs, hbody⟩ := List.forall_mem_cons.1 h
    exact .cons hs (ih hbody)

theorem forms_of_reprinted {body : List Stmt} {vss : List (List Token)}
    (h : List.Forall₂ (fun Q vs => Q vs) (body.map Reprinted) vss) :
    ∃ body', StatementForms vss.flatten body' ∧
      body'.map (mapTokens .bare) = body.map (mapTokens .bare) := by
  induction body generalizing vss with
  | nil =>
    cases h
    exact ⟨[], .nil, rfl⟩
  | cons s body ih =>
    cases h with
    | cons hs hbody =>
      obtain ⟨s', hform, hsame⟩ := hs
      obtain ⟨body', hforms, hsames⟩ := ih hbody
      refine ⟨s' :: body', .cons hform hforms, ?_⟩
      rw [List.map_cons, List.map_cons, hsame, hsames]

mutual

theorem Built.lexes {s : Stmt} (h : s.Built) :
    (∀ l ∈ s.leaves, l.Legible) → Lexes s.render.toList s.Reprinted :=
  match h with
  | .expression he => by
    intro hleaves
    refine lexes_of_parts rfl (.cons (he.lexes hleaves) .nil) ?_
    rintro head _ hhead (_ | ⟨⟨e', hform, hsame⟩, _ | _⟩)
    refine ⟨.expression e', ?_, congrArg Stmt.expression hsame⟩
    simpa using StatementParts.expression (Token.kind_eq_of_bare hhead) hform
  | @Built.print keyword e hk he => by
    intro hleaves
    obtain ⟨hkeyword, hleaves⟩ := List.forall_mem_cons.1 hleaves
    refine lexes_of_parts rfl (.cons (he.lexes hleaves) .nil) ?_
    rintro head _ hhead (_ | ⟨⟨e', hform, hsame⟩, _ | _⟩)
    -- All keywords of this kind are one word, so the statement's own is the one that is printed.
    have hbare : keyword.bare = (Token.word .printKw "scream").bare :=
      hkeyword.spelled.bare_eq (spelled_headWord (.print keyword e)) hk (by decide)
    refine ⟨.print head e', ?_, congrArg₂ Stmt.print (hhead.trans hbare.symm) hsame⟩
    simpa using StatementParts.print (Token.kind_eq_of_bare hhead) hform
  | .block hbody => by
    intro hleaves
    rw [leaves, leavesAll_eq] at hleaves
    have hlexes := forall₂_renderAll fun s hs =>
      (hbody s hs).lexes fun l hl => hleaves l (List.mem_flatMap.2 ⟨s, hs, hl⟩)
    refine lexes_of_parts rfl hlexes ?_
    intro head vss hhead hvss
    obtain ⟨body', hforms, hsame⟩ := forms_of_reprinted hvss
    refine ⟨.block body', .block (Token.kind_eq_of_bare hhead) hforms, ?_⟩
    rw [mapTokens, mapTokens, mapTokensAll_eq, mapTokensAll_eq, hsame]
  | .ifThen he hyes => by
    intro hleaves
    obtain ⟨hcondition, hleavesYes⟩ := List.forall_mem_append.1 hleaves
    refine lexes_of_parts rfl (.cons (he.lexes hcondition) (.cons (hyes.lexes hleavesYes) .nil)) ?_
    rintro head _ hhead
      (_ | ⟨⟨e', hform, hsame⟩, _ | ⟨⟨yes', hformYes, hsameYes⟩, _ | _⟩⟩)
    refine ⟨.ifThen e' yes', ?_, congrArg₂ Stmt.ifThen hsame hsameYes⟩
    simpa using StatementParts.ifThen (Token.kind_eq_of_bare hhead) hform hformYes
  | .ifElse he hyes hno => by
    intro hleaves
    obtain ⟨hleaves, hleavesNo⟩ := List.forall_mem_append.1 hleaves
    obtain ⟨hcondition, hleavesYes⟩ := List.forall_mem_append.1 hleaves
    refine lexes_of_parts rfl (.cons (he.lexes hcondition)
      (.cons (hyes.lexes hleavesYes) (.cons (hno.lexes hleavesNo) .nil))) ?_
    rintro head _ hhead (_ | ⟨⟨e', hform, hsame⟩, _ | ⟨⟨yes', hformYes, hsameYes⟩,
      _ | ⟨⟨no', hformNo, hsameNo⟩, _ | _⟩⟩⟩)
    refine ⟨.ifElse e' yes' no', ?_, ?_⟩
    · simpa using StatementParts.ifElse (Token.kind_eq_of_bare hhead) hform hformYes hformNo
    · rw [mapTokens, mapTokens, hsameYes, hsameNo]
      exact congrArg (Stmt.ifElse · _ _) hsame
  | .loop he hbody => by
    intro hleaves
    obtain ⟨hcondition, hinner⟩ := List.forall_mem_append.1 hleaves
    refine lexes_of_parts rfl (.cons (he.lexes hcondition) (.cons (hbody.lexes hinner) .nil)) ?_
    rintro head _ hhead
      (_ | ⟨⟨e', hform, hsame⟩, _ | ⟨⟨body', hformBody, hsameBody⟩, _ | _⟩⟩)
    refine ⟨.loop e' body', ?_, congrArg₂ Stmt.loop hsame hsameBody⟩
    simpa using StatementParts.loop (Token.kind_eq_of_bare hhead) hform hformBody

theorem Declared.lexes {s : Stmt} (h : s.Declared) :
    (∀ l ∈ s.leaves, l.Legible) → Lexes s.render.toList s.Reprinted :=
  match h with
  | @Declared.declare name none hk _ => by
    intro hleaves
    have hname := (List.forall_mem_cons.1 hleaves).1.spelled
    refine lexes_of_parts rfl (.cons hname.lexes .nil) ?_
    rintro head _ hhead (_ | ⟨⟨name', rfl, hsame⟩, _ | _⟩)
    refine ⟨.declare name' none, ?_, congrArg (Stmt.declare · none) hsame⟩
    exact .declare (Token.kind_eq_of_bare hhead)
  | @Declared.declare name (some e) hk he => by
    intro hleaves
    obtain ⟨hname, hleaves⟩ := List.forall_mem_cons.1 hleaves
    refine lexes_of_parts rfl
      (.cons hname.spelled.lexes (.cons ((he e rfl).lexes hleaves) .nil)) ?_
    rintro head _ hhead
      (_ | ⟨⟨name', rfl, hsame⟩, _ | ⟨⟨e', hform, hsame'⟩, _ | _⟩⟩)
    refine ⟨.declare name' (some e'), ?_, congrArg₂ (Stmt.declare · <| some ·) hsame hsame'⟩
    simpa using StatementParts.init (Token.kind_eq_of_bare hhead) hform
  | .statement h => h.lexes

end

/-- Some number in it is infinite. -/
def hasInfinity (s : Stmt) : Bool := s.leaves.any Leaf.isInfinite

theorem legible_of_mem_parse {source : String} {s : Stmt}
    (hs : s ∈ (parse (scan source).tokens).statements) (hfinite : ¬ s.hasInfinity) :
    ∀ l ∈ s.leaves, l.Legible := by
  intro l hl
  have hmem : l ∈ (parse (scan source).tokens).statements.flatMap leaves :=
    List.mem_flatMap.2 ⟨s, hs, hl⟩
  obtain ⟨t, ht, hkept⟩ := (kept_parse (scan source).tokens).exists_mem hmem
  rw [scan, beforeEnd_ofText] at ht
  refine ⟨⟨t, spelled_of_mem_words ht, hkept⟩, fun hinfinite => hfinite ?_⟩
  exact List.any_eq_true.2 ⟨l, hl, hinfinite⟩

end Stmt

/-- Of two statements with the same printed form, each without an infinite number, one is the other
at other places. -/
theorem render_unambiguous {source source' : String} {s s' : Stmt}
    (hs : s ∈ (parse (scan source).tokens).statements)
    (hs' : s' ∈ (parse (scan source').tokens).statements)
    (hfinite : ¬ s.hasInfinity) (hfinite' : ¬ s'.hasInfinity) (h : s.render = s'.render) :
    s.mapTokens .bare = s'.mapTokens .bare := by
  have hlexes := (declared_of_mem_parse hs).lexes (Stmt.legible_of_mem_parse hs hfinite)
  have hlexes' := (declared_of_mem_parse hs').lexes (Stmt.legible_of_mem_parse hs' hfinite')
  rw [← h] at hlexes'
  obtain ⟨-, u, hu, hsame⟩ := hlexes.words
  obtain ⟨-, u', hu', hsame'⟩ := hlexes'.words
  rw [← hsame, ← hsame', hu.unique hu']

/-- A string that looks like the end of a form, in two layouts. -/
theorem render_unambiguous_layout : ∃ s s',
    s ∈ (parse (scan "if (a) scream \")\" * 1.50; else {}").tokens).statements ∧
      s' ∈ (parse (scan "if (a) // yes\nscream \")\" * 1.5;\nelse {}").tokens).statements ∧
      ¬ s.hasInfinity ∧ ¬ s'.hasInfinity ∧ s.render = s'.render ∧
      s.mapTokens .bare = s'.mapTokens .bare := by
  have hseen : ((parse (scan "if (a) scream \")\" * 1.50; else {}").tokens).statements.map
      fun s => (s.render, s.hasInfinity)) = [("(if a (scream (* \")\" 1.5)) (block))", false)] := by
    decide +kernel
  have hseen' : ((parse (scan "if (a) // yes\nscream \")\" * 1.5;\nelse {}").tokens).statements.map
      fun s => (s.render, s.hasInfinity)) = [("(if a (scream (* \")\" 1.5)) (block))", false)] := by
    decide +kernel
  obtain ⟨s, hs, heq⟩ := List.mem_map.1 (hseen ▸ List.mem_singleton_self _)
  obtain ⟨s', hs', heq'⟩ := List.mem_map.1 (hseen' ▸ List.mem_singleton_self _)
  obtain ⟨hrender, hfinite⟩ := Prod.mk.inj heq
  obtain ⟨hrender', hfinite'⟩ := Prod.mk.inj heq'
  have hsame := hrender.trans hrender'.symm
  refine ⟨s, s', hs, hs', by simp [hfinite], by simp [hfinite'], hsame, ?_⟩
  exact render_unambiguous hs hs' (by simp [hfinite]) (by simp [hfinite']) hsame

end Treewalk
