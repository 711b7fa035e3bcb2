import Mathlib.Data.List.Forall2
import Treewalk.Proofs.Syntax.Built
import Treewalk.Proofs.Syntax.Trail

/-!
# Trees in the order of the source

A tree keeps some tokens as they are, and of a literal only the value. Read from left to right, what
the statements of a program keep is kept of tokens that stand in the same order before its end: none
is used twice, and none is made up. That holds of faulty programs too, where the parser drops what
it could not finish and goes on further right.
-/

namespace Treewalk

open Grammar (Derives)

/-- What a tree keeps of a token. -/
inductive Leaf where
  | token (t : Token)
  | value (v : Value)

/-- The token is a literal with this value. A number or a string that has none counts as `nil`. -/
inductive Token.Denotes : Token → Value → Prop
  | nilWord {t} : t.kind = .nilKw → Denotes t .nil
  | trueWord {t} : t.kind = .trueKw → Denotes t (.bool true)
  | falseWord {t} : t.kind = .falseKw → Denotes t (.bool false)
  | number {t} : t.kind = .number → Denotes t (Grammar.literalValue t.literal)
  | string {t} : t.kind = .string → Denotes t (Grammar.literalValue t.literal)

namespace Leaf

inductive KeptOf : Leaf → Token → Prop
  | token (t) : KeptOf (.token t) t
  | value {t v} : t.Denotes v → KeptOf (.value v) t

def token? : Leaf → Option Token
  | token t => some t
  | value _ => none

end Leaf

/-! ## From left to right -/

/-- An operator stands between its operands, or before the only one. -/
def Expr.leaves : Expr → List Leaf
  | literal v => [.value v]
  | grouping inner => inner.leaves
  | unary _ t operand => .token t :: operand.leaves
  | binary _ t left right => left.leaves ++ .token t :: right.leaves
  | logical _ t left right => left.leaves ++ .token t :: right.leaves
  | var name => [.token name]
  | assign name value => .token name :: value.leaves

namespace Stmt

mutual

def leaves : Stmt → List Leaf
  | expression e => e.leaves
  | print keyword e => .token keyword :: e.leaves
  | declare name none => [.token name]
  | declare name (some e) => .token name :: e.leaves
  | block body => leavesAll body
  | ifThen condition yes => condition.leaves ++ yes.leaves
  | ifElse condition yes no => condition.leaves ++ yes.leaves ++ no.leaves
  | loop condition body => condition.leaves ++ body.leaves

def leavesAll : List Stmt → List Leaf
  | [] => []
  | s :: body => s.leaves ++ leavesAll body

end

@[simp] theorem leavesAll_eq (body : List Stmt) : leavesAll body = body.flatMap leaves := by
  induction body with
  | nil => rfl
  | cons s body ih => rw [leavesAll, ih, List.flatMap_cons]

end Stmt

/-- The leaves are kept of some of the tokens, in the order of the tokens. -/
def Kept (ls : List Leaf) (ts : List Token) : Prop :=
  ∃ used, used.Sublist ts ∧ List.Forall₂ Leaf.KeptOf ls used

namespace Kept

variable {ls ms : List Leaf} {ts us : List Token}

theorem nil (ts : List Token) : Kept [] ts := ⟨[], ts.nil_sublist, .nil⟩

theorem append (hls : Kept ls ts) (hms : Kept ms us) : Kept (ls ++ ms) (ts ++ us) := by
  obtain ⟨used, hused, hkept⟩ := hls
  obtain ⟨used', hused', hkept'⟩ := hms
  exact ⟨used ++ used', hused.append hused', List.rel_append hkept hkept'⟩

theorem cons {l : Leaf} {t : Token} (hl : l.KeptOf t) (h : Kept ls ts) :
    Kept (l :: ls) (t :: ts) := by
  obtain ⟨used, hused, hkept⟩ := h
  exact ⟨t :: used, hused.cons_cons t, .cons hl hkept⟩

theorem mono (h : Kept ls ts) (hts : ts.Sublist us) : Kept ls us := by
  obtain ⟨used, hused, hkept⟩ := h
  exact ⟨used, hused.trans hts, hkept⟩

theorem skip (t : Token) (h : Kept ls ts) : Kept ls (t :: ts) := h.mono (List.sublist_cons_self t ts)

theorem before (h : Kept ls ts) (us : List Token) : Kept ls (ts ++ us) :=
  h.mono (List.sublist_append_left ts us)

theorem exists_mem (h : Kept ls ts) {l : Leaf} (hl : l ∈ ls) : ∃ t ∈ ts, l.KeptOf t := by
  obtain ⟨used, hused, hkept⟩ := h
  obtain ⟨n, hn, rfl⟩ := List.getElem_of_mem hl
  have hlt : n < used.length := hkept.length_eq ▸ hn
  exact ⟨used[n], hused.subset (List.getElem_mem hlt), hkept.get hn hlt⟩

theorem tokens (h : Kept ls ts) : (ls.filterMap Leaf.token?).Sublist ts := by
  obtain ⟨used, hused, hkept⟩ := h
  refine List.Sublist.trans ?_ hused
  clear hused
  induction hkept with
  | nil => exact .slnil
  | cons hl _ ih =>
    cases hl with
    | token => exact ih.cons_cons _
    | value => exact ih.cons _

end Kept

/-! ## Expressions -/

namespace Grammar

/-- The leaves of what stands left. -/
def Symbol.leaves : Symbol → List Leaf
  | .more _ left => left.leaves
  | _ => []

theorem Level.leaves_operand (l : Level) : l.operand.leaves = [] := by
  cases l <;> rfl

theorem Level.leaves_node {l : Level} {kind : Token.Kind} {node : Token → Expr → Expr → Expr}
    (h : l.node? kind = some node) (t : Token) (left right : Expr) :
    (node t left right).leaves = left.leaves ++ .token t :: right.leaves := by
  unfold Level.node? at h
  split at h <;> cases h <;> rfl

theorem Derives.kept {rules : Rules} {symbol : Symbol} {ts bad : List Token} {e : Expr}
    (h : Derives rules symbol ts e bad) :
    ∀ before, Kept symbol.leaves before → Kept e.leaves (before ++ ts) := by
  induction h with
  | falseWord hk => exact fun _ hb => hb.append (.cons (.value (.falseWord hk)) (.nil []))
  | trueWord hk => exact fun _ hb => hb.append (.cons (.value (.trueWord hk)) (.nil []))
  | nilWord hk => exact fun _ hb => hb.append (.cons (.value (.nilWord hk)) (.nil []))
  | number hk => exact fun _ hb => hb.append (.cons (.value (.number hk)) (.nil []))
  | string hk => exact fun _ hb => hb.append (.cons (.value (.string hk)) (.nil []))
  | name hk => exact fun _ hb => hb.append (.cons (.token _) (.nil []))
  | @group o c ts e bad _ _ _ ih =>
    intro before hb
    have hinner := (ih [] (.nil [])).before [c]
    exact hb.append (hinner.skip o)
  | unary hk _ ih => exact fun _ hb => hb.append (.cons (.token _) (ih [] (.nil [])))
  | primary _ ih | operand _ ih => exact ih
  | @level l ts us first e bad bad' _ _ ih ih' =>
    intro before hb
    rw [← List.append_assoc]
    refine ih' (before ++ ts) (ih before ?_)
    rw [Level.leaves_operand]
    exact hb
  | done =>
    intro before hb
    rw [List.append_nil]
    exact hb
  | @more l left t node ts us right e bad bad' hn _ _ ih ih' =>
    intro before hb
    have hright : Kept right.leaves ts := ih [] (by rw [Level.leaves_operand]; exact .nil [])
    rw [← List.append_assoc]
    refine ih' (before ++ t :: ts) ?_
    show Kept (node t left right).leaves _
    rw [Level.leaves_node hn]
    exact hb.append (.cons (.token t) hright)
  | @assign name equals ts e bad _ _ _ ih =>
    exact fun _ hb => hb.append (.cons (.token name) ((ih [] (.nil [])).skip equals))
  | @badAssign equals ts us left e bad bad' _ _ _ _ _ ih _ =>
    intro before hb
    rw [← List.append_assoc]
    exact (ih before hb).before (equals :: us)

end Grammar

/-! ## The parser -/

theorem Trail.suffix {ts rest : List Token} {cs : List Complaint} (h : Trail ts cs rest) :
    rest <:+ ts := by
  induction h with
  | here => exact List.suffix_rfl
  | pass t _ ih | trip _ t _ ih | target t _ ih => exact ih.trans (List.suffix_cons t _)
  | atEnd _ _ ih => exact ih

namespace Parser

variable {α : Type}

theorem kept_expression {ts rest : List Token} {e : Expr} {noted : List Complaint}
    (h : Yields expression ts e rest noted) : ∃ used, ts = used ++ rest ∧ Kept e.leaves used := by
  obtain ⟨used, bad, hts, hderives, -⟩ := expression_sound _ _ _ _ h
  exact ⟨used, hts, hderives.kept [] (.nil [])⟩

/-- The parser goes forward, and what it gives is kept of the tokens that it takes. -/
structure InOrder (leaves : α → List Leaf) (p : Parser α) : Prop where
  forward : Forward p
  kept : ∀ {ts a rest noted}, Yields p ts a rest noted →
    ∃ used, ts = used ++ rest ∧ Kept (leaves a) used

theorem kept_semicolon {what : Expectation} {build : Expr → Stmt} {ts rest : List Token} {s : Stmt}
    {noted : List Complaint}
    (h : Yields (expression >>= fun e => expect .semicolon what >>= fun _ => pure (build e))
      ts s rest noted) : ∃ used e, ts = used ++ rest ∧ s = build e ∧ Kept e.leaves used := by
  obtain ⟨e, semi, he, -, rfl⟩ := yields_semicolon.1 h
  obtain ⟨used, rfl, hused⟩ := kept_expression he
  exact ⟨used ++ [semi], e, by simp, rfl, hused.before [semi]⟩

theorem kept_declarationTail {ts rest : List Token} {s : Stmt} {noted : List Complaint}
    (h : Yields declarationTail ts s rest noted) :
    ∃ used, ts = used ++ rest ∧ Kept s.leaves used := by
  obtain ⟨name, us, rfl, -, htail⟩ := yields_declarationTail.1 h
  rcases htail with ⟨semi, rfl, -, rfl, -⟩ | ⟨equals, vs, e, semi, rfl, -, he, -, rfl⟩
  · exact ⟨[name, semi], rfl, .cons (.token name) (.nil [semi])⟩
  · obtain ⟨used, rfl, hused⟩ := kept_expression he
    refine ⟨name :: equals :: (used ++ [semi]), by simp, ?_⟩
    exact .cons (.token name) ((hused.before [semi]).skip equals)

theorem InOrder.declaration {p : Parser Stmt} (hp : InOrder Stmt.leaves p) :
    InOrder Stmt.leaves (declaration p) where
  forward := forward_declaration hp.forward
  kept {ts s rest noted} h := by
    cases ts with
    | nil => exact hp.kept h
    | cons t ts =>
      rcases yields_declaration.1 h with ⟨-, hvar⟩ | ⟨-, hstatement⟩
      · obtain ⟨used, rfl, hused⟩ := kept_declarationTail hvar
        exact ⟨t :: used, rfl, hused.skip t⟩
      · exact hp.kept hstatement

theorem InOrder.recover {leaves : α → List Leaf} {p : Parser α} (hp : InOrder leaves p) :
    InOrder (fun first => first.toList.flatMap leaves) (recover p) where
  forward := forward_recover hp.forward
  kept {ts first rest noted} h := by
    cases first with
    | some a =>
      obtain ⟨used, hts, hused⟩ := hp.kept (yields_recover_some.1 h)
      refine ⟨used, hts, ?_⟩
      simpa using hused
    | none =>
      have htrail := forward_recover hp.forward ts
      rw [show Parser.recover p ts = _ from h] at htrail
      obtain ⟨used, hused⟩ := htrail.suffix
      exact ⟨used, hused.symm, .nil used⟩

theorem InOrder.declarations {p : Parser Stmt} (hp : InOrder Stmt.leaves p)
    (stop : Option Token.Kind) :
    ∀ rounds, InOrder (·.flatMap Stmt.leaves) (declarations stop p rounds)
  | [] => by
    refine ⟨forward_pure [], fun {ts body rest noted} h => ?_⟩
    obtain ⟨rfl, rfl, -⟩ := yields_pure.1 h
    exact ⟨[], rfl, .nil []⟩
  | r :: rounds => by
    refine ⟨forward_declarations stop hp.forward (r :: rounds), fun {ts body rest noted} h => ?_⟩
    rcases yields_declarations.1 h with ⟨-, rfl, rfl, -⟩ |
      ⟨t, us, first, mid, before, others, after, -, -, hfirst, hothers, rfl, -⟩
    · exact ⟨[], rfl, .nil []⟩
    · obtain ⟨used, rfl, hused⟩ := hp.declaration.recover.kept hfirst
      obtain ⟨used', rfl, hused'⟩ := (InOrder.declarations hp stop rounds).kept hothers
      refine ⟨used ++ used', by simp, ?_⟩
      rw [List.flatMap_append]
      exact hused.append hused'

theorem InOrder.kept_ifTail {p : Parser Stmt} (hp : InOrder Stmt.leaves p) {ts rest : List Token}
    {s : Stmt} {noted : List Complaint} (h : Yields (ifTail p) ts s rest noted) :
    ∃ used, ts = used ++ rest ∧ Kept s.leaves used := by
  obtain ⟨o, us, condition, _, c, vs, yes, mid, _, rfl, -, he, -, hyes, hcase⟩ := yields_ifTail.1 h
  obtain ⟨used, rfl, hused⟩ := kept_expression he
  obtain ⟨used', rfl, hused'⟩ := hp.kept hyes
  have hboth : Kept (condition.leaves ++ yes.leaves) (o :: used ++ c :: used') :=
    (hused.skip o).append (hused'.skip c)
  rcases hcase with ⟨-, rfl, rfl, -⟩ | ⟨other, ws, no, _, rfl, -, hno, rfl, -⟩
  · exact ⟨o :: used ++ c :: used', by simp, hboth⟩
  · obtain ⟨used'', rfl, hused''⟩ := hp.kept hno
    refine ⟨(o :: used ++ c :: used') ++ other :: used'', by simp, ?_⟩
    exact hboth.append (hused''.skip other)

theorem InOrder.kept_whileTail {p : Parser Stmt} (hp : InOrder Stmt.leaves p)
    {ts rest : List Token} {s : Stmt} {noted : List Complaint}
    (h : Yields (whileTail p) ts s rest noted) :
    ∃ used, ts = used ++ rest ∧ Kept s.leaves used := by
  obtain ⟨o, us, condition, _, c, vs, body, _, rfl, -, he, -, hbody, rfl, -⟩ :=
    yields_whileTail.1 h
  obtain ⟨used, rfl, hused⟩ := kept_expression he
  obtain ⟨used', rfl, hused'⟩ := hp.kept hbody
  refine ⟨o :: used ++ c :: used', by simp, ?_⟩
  exact (hused.skip o).append (hused'.skip c)

theorem InOrder.kept_blockTail {p : Parser Stmt} (hp : InOrder Stmt.leaves p)
    {ts rest : List Token} {s : Stmt} {noted : List Complaint}
    (h : Yields (blockTail p) ts s rest noted) :
    ∃ used, ts = used ++ rest ∧ Kept s.leaves used := by
  obtain ⟨body, c, hbody, -, rfl⟩ := yields_blockTail.1 h
  obtain ⟨used, hts, hused⟩ := (hp.declarations _ _).kept hbody
  refine ⟨used ++ [c], by simpa using hts, ?_⟩
  rw [Stmt.leaves, Stmt.leavesAll_eq]
  exact hused.before [c]

theorem InOrder.statementAround {p : Parser Stmt} (hp : InOrder Stmt.leaves p) :
    InOrder Stmt.leaves (statementAround p) where
  forward := forward_statementAround hp.forward
  kept {ts s rest noted} h := by
    have hexpr {us : List Token} (h : Yields expressionStatement us s rest noted) :
        ∃ used, us = used ++ rest ∧ Kept s.leaves used := by
      obtain ⟨used, e, hus, rfl, hused⟩ := kept_semicolon h
      exact ⟨used, hus, hused⟩
    cases ts with
    | nil => exact hexpr h
    | cons t ts =>
      -- The keyword or the brace is taken first. Only `scream` is kept.
      rcases yields_statementAround.1 h with
        ⟨-, hif⟩ | ⟨-, hprint⟩ | ⟨-, hwhile⟩ | ⟨-, hblock⟩ | ⟨-, hexpression⟩
      · obtain ⟨used, rfl, hused⟩ := hp.kept_ifTail hif
        exact ⟨t :: used, rfl, hused.skip t⟩
      · obtain ⟨used, e, rfl, rfl, hused⟩ := kept_semicolon hprint
        exact ⟨t :: used, rfl, .cons (.token t) hused⟩
      · obtain ⟨used, rfl, hused⟩ := hp.kept_whileTail hwhile
        exact ⟨t :: used, rfl, hused.skip t⟩
      · obtain ⟨used, rfl, hused⟩ := hp.kept_blockTail hblock
        exact ⟨t :: used, rfl, hused.skip t⟩
      · exact hexpr hexpression

theorem inOrder_statement : InOrder Stmt.leaves statement := by
  have hlevels (rounds : List Token) : InOrder Stmt.leaves (levels statementAround rounds) := by
    induction rounds with
    | nil =>
      exact .statementAround ⟨forward_fail .expression, fun h => absurd h not_yields_fail⟩
    | cons _ rounds ih => exact ih.statementAround
  exact ⟨forward_statement, fun {ts} _ _ _ h => (hlevels ts).kept h⟩

end Parser

theorem kept_parse (tokens : List Token) :
    Kept ((parse tokens).statements.flatMap Stmt.leaves) (beforeEnd tokens) := by
  obtain ⟨body, rest, noted, hy⟩ :=
    Parser.declarations_ok none Parser.statement (beforeEnd tokens) (beforeEnd tokens)
  obtain ⟨used, hused, hkept⟩ := (Parser.inOrder_statement.declarations none _).kept hy
  rw [parse_eq hy, hused]
  exact hkept.before rest

/-- What the statements of a program keep, from left to right, is a subsequence of its tokens. -/
theorem statements_in_source_order (tokens : List Token) :
    List.Sublist (((parse tokens).statements.flatMap Stmt.leaves).filterMap Leaf.token?)
      (beforeEnd tokens) ∧
    ∃ used, used.Sublist (beforeEnd tokens) ∧
      List.Forall₂ Leaf.KeptOf ((parse tokens).statements.flatMap Stmt.leaves) used :=
  ⟨(kept_parse tokens).tokens, kept_parse tokens⟩

end Treewalk
