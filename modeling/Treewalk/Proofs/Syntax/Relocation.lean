import Treewalk.Proofs.Syntax.Grammar

/-!
# Trees whose tokens are moved

A token can be moved to another place of a source without a change to what it says. What the
grammar derives moves with its tokens.
-/

namespace Treewalk

/-- Changes the place of a token and nothing else. -/
structure Token.Moves (f : Token → Token) : Prop where
  kind : ∀ t, (f t).kind = t.kind
  lexeme : ∀ t, (f t).lexeme = t.lexeme
  literal : ∀ t, (f t).literal = t.literal

variable (f : Token → Token)

def Expr.mapTokens : Expr → Expr
  | literal v => literal v
  | grouping inner => grouping inner.mapTokens
  | unary op t operand => unary op (f t) operand.mapTokens
  | binary op t left right => binary op (f t) left.mapTokens right.mapTokens
  | logical op t left right => logical op (f t) left.mapTokens right.mapTokens
  | var name => var (f name)
  | assign name value => assign (f name) value.mapTokens

namespace Stmt

mutual

def mapTokens : Stmt → Stmt
  | expression e => expression (e.mapTokens f)
  | print keyword e => print (f keyword) (e.mapTokens f)
  | declare name init => declare (f name) (init.map (·.mapTokens f))
  | block body => block (mapTokensAll body)
  | ifThen condition yes => ifThen (condition.mapTokens f) yes.mapTokens
  | ifElse condition yes no => ifElse (condition.mapTokens f) yes.mapTokens no.mapTokens
  | loop condition body => loop (condition.mapTokens f) body.mapTokens

def mapTokensAll : List Stmt → List Stmt
  | [] => []
  | s :: body => s.mapTokens :: mapTokensAll body

end

@[simp] theorem mapTokensAll_eq (body : List Stmt) : mapTokensAll f body = body.map (mapTokens f) := by
  induction body with
  | nil => rfl
  | cons s body ih => rw [mapTokensAll, ih, List.map_cons]

end Stmt

namespace Grammar

/-! ## Derivations -/

variable {f}

def Symbol.mapTokens (f : Token → Token) : Symbol → Symbol
  | .more l left => .more l (left.mapTokens f)
  | symbol => symbol

theorem Level.mapTokens_operand (l : Level) : l.operand.mapTokens f = l.operand := by
  cases l <;> rfl

theorem Level.mapTokens_node {l : Level} {kind : Token.Kind} {node : Token → Expr → Expr → Expr}
    (h : l.node? kind = some node) (t : Token) (left right : Expr) :
    (node t left right).mapTokens f = node (f t) (left.mapTokens f) (right.mapTokens f) := by
  unfold Level.node? at h
  split at h <;> cases h <;> rfl

theorem Derives.mapTokens (hf : Token.Moves f) {rules : Rules} {symbol : Symbol}
    {ts bad : List Token} {e : Expr} (h : Derives rules symbol ts e bad) :
    Derives rules (symbol.mapTokens f) (ts.map f) (e.mapTokens f) (bad.map f) := by
  induction h with
  | falseWord hk => exact .falseWord ((hf.kind _).trans hk)
  | trueWord hk => exact .trueWord ((hf.kind _).trans hk)
  | nilWord hk => exact .nilWord ((hf.kind _).trans hk)
  | number hk => rw [← hf.literal]; exact .number ((hf.kind _).trans hk)
  | string hk => rw [← hf.literal]; exact .string ((hf.kind _).trans hk)
  | name hk => exact .name ((hf.kind _).trans hk)
  | group ho _ hc ih =>
    rw [List.map_append, List.map_cons]
    exact .group ((hf.kind _).trans ho) ih ((hf.kind _).trans hc)
  | unary hk _ ih => exact .unary ((hf.kind _).trans hk) ih
  | primary _ ih => exact .primary ih
  | level _ _ ih ih' =>
    rw [List.map_append, List.map_append]
    exact .level (Level.mapTokens_operand _ ▸ ih) ih'
  | done => exact .done
  | more hn _ _ ih ih' =>
    rw [List.map_append, List.map_append, List.map_cons]
    refine .more (by rw [hf.kind]; exact hn) (Level.mapTokens_operand _ ▸ ih) ?_
    rw [← Level.mapTokens_node hn]
    exact ih'
  | operand _ ih => exact .operand ih
  | assign hname hk _ ih => exact .assign ((hf.kind _).trans hname) ((hf.kind _).trans hk) ih
  | badAssign hany _ hne hk _ ih ih' =>
    rw [List.map_append, List.map_append, List.map_cons, List.map_cons]
    refine .badAssign hany ih (fun name hname hts => ?_) ((hf.kind _).trans hk) ih'
    obtain ⟨t, rfl, rfl⟩ := List.map_eq_singleton_iff.1 hts
    exact hne t ((hf.kind t).symm.trans hname) rfl

theorem takesElse_mapTokens (s : Stmt) : takesElse (s.mapTokens f) = takesElse s := by
  fun_induction takesElse s with
  | case1 => simp [Stmt.mapTokens, takesElse]
  | case2 _ _ _ ih => simp [Stmt.mapTokens, takesElse, ih]
  | case3 _ _ ih => simp [Stmt.mapTokens, takesElse, ih]
  | case4 s h1 h2 h3 => cases s <;> simp_all [Stmt.mapTokens, takesElse]

mutual

theorem Statement.mapTokens (hf : Token.Moves f) {rules : Rules} {ts bad : List Token} {s : Stmt}
    (h : Statement rules ts s bad) : Statement rules (ts.map f) (s.mapTokens f) (bad.map f) :=
  match h with
  | .ifThen hi ho hd hc hyes => by
    rw [Stmt.mapTokens, List.map_append, List.map_append]
    exact .ifThen ((hf.kind _).trans hi) ((hf.kind _).trans ho) (hd.mapTokens hf)
      ((hf.kind _).trans hc) (hyes.mapTokens hf)
  | .ifElse hi ho hd hc hyes hclosed hk hno => by
    rw [Stmt.mapTokens, List.map_append, List.map_append, List.map_append, List.map_append]
    refine .ifElse ((hf.kind _).trans hi) ((hf.kind _).trans ho) (hd.mapTokens hf)
      ((hf.kind _).trans hc) (hyes.mapTokens hf) ?_ ((hf.kind _).trans hk) (hno.mapTokens hf)
    rw [takesElse_mapTokens]
    exact hclosed
  | .loop hw ho hd hc hbody => by
    rw [Stmt.mapTokens, List.map_append, List.map_append]
    exact .loop ((hf.kind _).trans hw) ((hf.kind _).trans ho) (hd.mapTokens hf)
      ((hf.kind _).trans hc) (hbody.mapTokens hf)
  | .block ho hbody hc => by
    rw [Stmt.mapTokens, Stmt.mapTokensAll_eq, List.map_append]
    exact .block ((hf.kind _).trans ho) (hbody.mapTokens hf) ((hf.kind _).trans hc)
  | .print hk hd hs => by
    rw [Stmt.mapTokens, List.map_append]
    exact .print ((hf.kind _).trans hk) (hd.mapTokens hf) ((hf.kind _).trans hs)
  | .expression hd hs => by
    rw [Stmt.mapTokens, List.map_append]
    exact .expression (hd.mapTokens hf) ((hf.kind _).trans hs)

theorem Declaration.mapTokens (hf : Token.Moves f) {rules : Rules} {ts bad : List Token} {s : Stmt}
    (h : Declaration rules ts s bad) : Declaration rules (ts.map f) (s.mapTokens f) (bad.map f) :=
  match h with
  | .var hv hname hs =>
    .var ((hf.kind _).trans hv) ((hf.kind _).trans hname) ((hf.kind _).trans hs)
  | .init hv hname hk hd hs => by
    rw [Stmt.mapTokens, List.map_append]
    exact .init ((hf.kind _).trans hv) ((hf.kind _).trans hname) ((hf.kind _).trans hk)
      (hd.mapTokens hf) ((hf.kind _).trans hs)
  | .statement hs => .statement (hs.mapTokens hf)

theorem Declarations.mapTokens (hf : Token.Moves f) {rules : Rules} {ts bad : List Token}
    {body : List Stmt} (h : Declarations rules ts body bad) :
    Declarations rules (ts.map f) (body.map (·.mapTokens f)) (bad.map f) :=
  match h with
  | .nil => .nil
  | .cons hd hbody => by
    rw [List.map_append, List.map_append]
    exact .cons (hd.mapTokens hf) (hbody.mapTokens hf)

end

end Grammar

end Treewalk
