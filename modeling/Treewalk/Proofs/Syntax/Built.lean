import Treewalk.Proofs.Syntax.Statements

/-!
# Trees that the parser builds

A program with errors has statements too: those that could be parsed. Whatever the tokens are, no
declaration stands as a branch or as the body of a loop, and the grammar derives every expression.
-/

namespace Treewalk

open Grammar (Derives relaxed)

/-! ## Parts of a tree -/

/-- All nodes, the root first. -/
def Expr.nodes : Expr → List Expr
  | literal v => [literal v]
  | grouping inner => grouping inner :: inner.nodes
  | unary op t operand => unary op t operand :: operand.nodes
  | binary op t left right => binary op t left right :: (left.nodes ++ right.nodes)
  | logical op t left right => logical op t left right :: (left.nodes ++ right.nodes)
  | var name => [var name]
  | assign name value => assign name value :: value.nodes

namespace Stmt

mutual

/-- The statement and all statements inside it. -/
def parts : Stmt → List Stmt
  | expression e => [expression e]
  | print keyword e => [print keyword e]
  | declare name init => [declare name init]
  | block body => block body :: partsAll body
  | ifThen condition yes => ifThen condition yes :: yes.parts
  | ifElse condition yes no => ifElse condition yes no :: (yes.parts ++ no.parts)
  | loop condition body => loop condition body :: body.parts

def partsAll : List Stmt → List Stmt
  | [] => []
  | s :: body => s.parts ++ partsAll body

end

@[simp] theorem partsAll_eq (body : List Stmt) : partsAll body = body.flatMap parts := by
  induction body with
  | nil => rfl
  | cons s body ih => rw [partsAll, ih, List.flatMap_cons]

theorem mem_parts_self (s : Stmt) : s ∈ s.parts := by
  cases s <;> simp [parts]

/-- The expressions of the statement itself, without those of the statements inside it. -/
def exprs : Stmt → List Expr
  | expression e | print _ e | ifThen e _ | ifElse e _ _ | loop e _ => [e]
  | declare _ init => init.toList
  | block _ => []

/-- The nodes of all expressions in a statement. -/
def nodes (s : Stmt) : List Expr := s.parts.flatMap fun part => part.exprs.flatMap Expr.nodes

section

variable {keyword name : Token} {e : Expr} {yes no s : Stmt}

@[simp] theorem nodes_expression : (expression e).nodes = e.nodes := by
  show e.nodes ++ [] ++ [] = e.nodes
  simp

@[simp] theorem nodes_print : (print keyword e).nodes = e.nodes := by
  show e.nodes ++ [] ++ [] = e.nodes
  simp

@[simp] theorem nodes_declare_some : (declare name (some e)).nodes = e.nodes := by
  show e.nodes ++ [] ++ [] = e.nodes
  simp

@[simp] theorem nodes_block {body : List Stmt} : (block body).nodes = body.flatMap nodes := by
  show (partsAll body).flatMap _ = _
  rw [partsAll_eq, List.flatMap_assoc]
  rfl

@[simp] theorem nodes_ifThen : (ifThen e yes).nodes = e.nodes ++ yes.nodes := by
  show e.nodes ++ [] ++ yes.nodes = e.nodes ++ yes.nodes
  rw [List.append_nil]

@[simp] theorem nodes_ifElse : (ifElse e yes no).nodes = e.nodes ++ yes.nodes ++ no.nodes := by
  show e.nodes ++ [] ++ (yes.parts ++ no.parts).flatMap _ = _
  rw [List.append_nil, List.flatMap_append, List.append_assoc]
  rfl

@[simp] theorem nodes_loop : (loop e s).nodes = e.nodes ++ s.nodes := by
  show e.nodes ++ [] ++ s.nodes = e.nodes ++ s.nodes
  rw [List.append_nil]

end

end Stmt

/-! ## What may stand where -/

/-- The grammar derives it from some tokens. -/
def Expr.Parsed (e : Expr) : Prop := ∃ ts bad, Derives relaxed .assignment ts e bad

namespace Stmt

mutual

/-- A statement that is no declaration. -/
inductive Built : Stmt → Prop
  | expression {e} : e.Parsed → Built (.expression e)
  | print {keyword e} : keyword.kind = .printKw → e.Parsed → Built (.print keyword e)
  | block {body} : (∀ s ∈ body, Declared s) → Built (.block body)
  | ifThen {condition yes} : condition.Parsed → Built yes → Built (.ifThen condition yes)
  | ifElse {condition yes no} : condition.Parsed → Built yes → Built no →
    Built (.ifElse condition yes no)
  | loop {condition body} : condition.Parsed → Built body → Built (.loop condition body)

/-- A declaration or a statement. -/
inductive Declared : Stmt → Prop
  | declare {name init} : name.kind = .identifier → (∀ e ∈ init, Expr.Parsed e) →
    Declared (.declare name init)
  | statement {s} : Built s → Declared s

end

theorem Declared.parsed {s : Stmt} {e : Expr} (h : s.Declared) (he : e ∈ s.exprs) : e.Parsed := by
  cases h with
  | declare _ hinit => exact hinit e (by simpa [exprs] using he)
  | statement h =>
    cases h with
    | block => simp [exprs] at he
    | expression hp | print _ hp | ifThen hp | ifElse hp | loop hp =>
      simp only [exprs, List.mem_singleton] at he
      exact he ▸ hp

mutual

theorem Built.parts {s : Stmt} (h : s.Built) : ∀ t ∈ s.parts, t.Declared :=
  match h with
  | .expression he => by
    intro t ht
    obtain rfl := List.mem_singleton.1 ht
    exact .statement (.expression he)
  | .print hk he => by
    intro t ht
    obtain rfl := List.mem_singleton.1 ht
    exact .statement (.print hk he)
  | .block hbody => by
    intro t ht
    rw [Stmt.parts, partsAll_eq] at ht
    rcases List.mem_cons.1 ht with rfl | ht
    · exact .statement (.block hbody)
    · obtain ⟨s, hs, ht⟩ := List.mem_flatMap.1 ht
      exact (hbody s hs).parts t ht
  | .ifThen he hyes => by
    intro t ht
    rcases List.mem_cons.1 ht with rfl | ht
    · exact .statement (.ifThen he hyes)
    · exact hyes.parts t ht
  | .ifElse he hyes hno => by
    intro t ht
    rcases List.mem_cons.1 ht with rfl | ht
    · exact .statement (.ifElse he hyes hno)
    · rcases List.mem_append.1 ht with ht | ht
      · exact hyes.parts t ht
      · exact hno.parts t ht
  | .loop he hbody => by
    intro t ht
    rcases List.mem_cons.1 ht with rfl | ht
    · exact .statement (.loop he hbody)
    · exact hbody.parts t ht

theorem Declared.parts {s : Stmt} (h : s.Declared) : ∀ t ∈ s.parts, t.Declared :=
  match h with
  | .declare hk hinit => by
    intro t ht
    obtain rfl := List.mem_singleton.1 ht
    exact .declare hk hinit
  | .statement h => h.parts

end

end Stmt

/-! ## The parser -/

namespace Parser

/-- Gives statements that are no declarations. -/
def Builds (p : Parser Stmt) : Prop := ∀ ts s rest noted, Yields p ts s rest noted → s.Built

theorem parsed_of_yields {ts rest : List Token} {e : Expr} {noted : List Complaint}
    (h : Yields expression ts e rest noted) : e.Parsed := by
  obtain ⟨used, bad, -, hd, -⟩ := expression_sound _ _ _ _ h
  exact ⟨used, bad, hd⟩

theorem declared_of_yields_declaration {p : Parser Stmt} (hp : Builds p) {ts rest : List Token}
    {s : Stmt} {noted : List Complaint} (h : Yields (declaration p) ts s rest noted) :
    s.Declared := by
  cases ts with
  | nil => exact .statement (hp _ _ _ _ h)
  | cons t ts =>
    rcases yields_declaration.1 h with ⟨-, hv⟩ | ⟨-, hs⟩
    · obtain ⟨name, us, rfl, hname, htail⟩ := yields_declarationTail.1 hv
      rcases htail with ⟨_, -, -, rfl, -⟩ | ⟨_, vs, e, _, -, -, he, -, rfl⟩
      · exact .declare hname nofun
      · refine .declare hname fun e' he' => ?_
        obtain rfl : e = e' := by simpa using he'
        exact parsed_of_yields he
    · exact .statement (hp _ _ _ _ hs)

theorem declared_of_yields_declarations {p : Parser Stmt} (hp : Builds p)
    {stop : Option Token.Kind} :
    ∀ (rounds ts : List Token) (body : List Stmt) (rest : List Token) (noted : List Complaint),
      Yields (declarations stop p rounds) ts body rest noted → ∀ s ∈ body, s.Declared
  | [], ts, body, rest, noted, h => by
    obtain ⟨rfl, -, -⟩ := yields_pure.1 h
    simp
  | _ :: rounds, ts, body, rest, noted, h => by
    rcases yields_declarations.1 h with ⟨-, rfl, -, -⟩ |
      ⟨t, us, first, mid, before, others, after, -, -, hfirst, hothers, rfl, -⟩
    · simp
    · intro s hs
      rcases List.mem_append.1 hs with hs | hs
      · obtain rfl : first = some s := Option.mem_toList.1 hs
        exact declared_of_yields_declaration hp (yields_recover_some.1 hfirst)
      · exact declared_of_yields_declarations hp rounds mid others rest after hothers s hs

theorem builds_statementAround {p : Parser Stmt} (hp : Builds p) : Builds (statementAround p) := by
  intro ts s rest noted h
  have hexpr {us : List Token} (h : Yields expressionStatement us s rest noted) : s.Built := by
    obtain ⟨e, _, he, -, rfl⟩ := yields_semicolon.1 h
    exact .expression (parsed_of_yields he)
  cases ts with
  | nil => exact hexpr h
  | cons t ts =>
    rcases yields_statementAround.1 h with
      ⟨-, hif⟩ | ⟨hk, hprint⟩ | ⟨-, hwhile⟩ | ⟨-, hblock⟩ | ⟨-, hexp⟩
    · obtain ⟨_, us, condition, _, _, vs, yes, mid, _, -, -, he, -, hyes, hcase⟩ :=
        yields_ifTail.1 hif
      rcases hcase with ⟨-, rfl, -, -⟩ | ⟨_, ws, no, _, -, -, hno, rfl, -⟩
      · exact .ifThen (parsed_of_yields he) (hp _ _ _ _ hyes)
      · exact .ifElse (parsed_of_yields he) (hp _ _ _ _ hyes) (hp _ _ _ _ hno)
    · obtain ⟨e, _, he, -, rfl⟩ := yields_semicolon.1 hprint
      exact .print hk (parsed_of_yields he)
    · obtain ⟨_, us, condition, _, _, vs, body, _, -, -, he, -, hbody, rfl, -⟩ :=
        yields_whileTail.1 hwhile
      exact .loop (parsed_of_yields he) (hp _ _ _ _ hbody)
    · obtain ⟨body, _, hbody, -, rfl⟩ := yields_blockTail.1 hblock
      exact .block (declared_of_yields_declarations hp _ _ _ _ _ hbody)
    · exact hexpr hexp

theorem builds_statement : Builds statement := by
  have h : ∀ rounds, Builds (levels statementAround rounds) := by
    intro rounds
    induction rounds with
    | nil => exact builds_statementAround fun _ _ _ _ h => absurd h not_yields_fail
    | cons _ rounds ih => exact builds_statementAround ih
  exact fun ts => h ts ts

end Parser

theorem declared_of_mem_parse {tokens : List Token} {s : Stmt}
    (h : s ∈ (parse tokens).statements) : s.Declared := by
  obtain ⟨body, rest, noted, hy⟩ :=
    Parser.declarations_ok none Parser.statement (beforeEnd tokens) (beforeEnd tokens)
  rw [parse_eq hy] at h
  exact Parser.declared_of_yields_declarations Parser.builds_statement _ _ _ _ _ hy s h

end Treewalk
