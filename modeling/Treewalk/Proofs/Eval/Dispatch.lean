import Treewalk.Eval.Stmt
import Treewalk.Proofs.Syntax.Built
import Treewalk.Proofs.Syntax.PrefixForm

/-!
# Operators by their tokens

A node says what its operator does, and so does the kind of the token beside it. Who goes by the
tokens alone could meet one that is no operator. In a tree that was parsed or read there is none,
and going by the tokens gives the same as going by the nodes.
-/

namespace Treewalk

/-! ## Evaluating by the tokens

An error of these functions is the token that is no operator. -/

def UnaryOp.ofToken (t : Token) : Except Token UnaryOp :=
  match t.kind with
  | .bang => .ok not
  | .minus => .ok negate
  | _ => .error t

def BinaryOp.ofToken (t : Token) : Except Token BinaryOp :=
  match t.kind with
  | .plus => .ok add
  | .minus => .ok subtract
  | .star => .ok multiply
  | .slash => .ok divide
  | .equalEqual => .ok equal
  | .bangEqual => .ok notEqual
  | .greater => .ok greater
  | .greaterEqual => .ok greaterEqual
  | .less => .ok less
  | .lessEqual => .ok lessEqual
  | _ => .error t

/-- Whatever is not `or` is taken for `and`. -/
def LogicalOp.ofToken (t : Token) : LogicalOp := if t.kind = .orKw then or else and

def Evaluated.tryThen (x : Evaluated) (next : Value → Environment → Except Token Evaluated) :
    Except Token Evaluated :=
  match x.result with
  | .ok v => next v x.env
  | .error e => .ok ⟨.error e, x.env⟩

def Expr.evalByToken : Expr → Environment → Except Token Evaluated
  | literal v, env => .ok ⟨.ok v, env⟩
  | grouping inner, env => inner.evalByToken env
  | unary _ t operand, env => do
    let x ← operand.evalByToken env
    x.tryThen fun v env => do
      let op ← UnaryOp.ofToken t
      return ⟨blame t (op.apply v), env⟩
  | binary _ t left right, env => do
    let x ← left.evalByToken env
    x.tryThen fun a env => do
      let y ← right.evalByToken env
      y.tryThen fun b env => do
        let op ← BinaryOp.ofToken t
        return ⟨blame t (op.apply a b), env⟩
  | logical _ t left right, env => do
    let x ← left.evalByToken env
    x.tryThen fun a env =>
      if (LogicalOp.ofToken t).decidedBy a then .ok ⟨.ok a, env⟩ else right.evalByToken env
  | var name, env =>
    match env.get? name.lexeme with
    | some v => .ok ⟨.ok v, env⟩
    | none => .ok ⟨.error (undefined name), env⟩
  | assign name value, env => do
    let x ← value.evalByToken env
    x.tryThen fun v env =>
      match env.assign? name.lexeme v with
      | some env => .ok ⟨.ok v, env⟩
      | none => .ok ⟨.error (undefined name), env⟩

def State.evaluatingByToken (st : State) (e : Expr)
    (next : Value → State → Except Token (Option Ending)) : Except Token (Option Ending) := do
  let x ← e.evalByToken st.env
  match x.result with
  | .ok v => next v { st with env := x.env }
  | .error error => return some ⟨some error, { st with env := x.env }⟩

def runAllByToken (run : Stmt → State → Except Token (Option Ending)) :
    List Stmt → State → Except Token (Option Ending)
  | [], st => .ok (some st.done)
  | s :: body, st => do
    match ← run s st with
    | some ⟨none, st⟩ => runAllByToken run body st
    | ending => return ending

namespace Stmt

def execByToken : Nat → Stmt → State → Except Token (Option Ending)
  | 0, _, _ => .ok none
  | n + 1, s, st =>
    match s with
    | expression e => st.evaluatingByToken e fun _ st => .ok (some st.done)
    | print keyword e => st.evaluatingByToken e fun v st => .ok (some (st.shown keyword v))
    | declare name none => .ok (some (st.define name .nil).done)
    | declare name (some e) =>
      st.evaluatingByToken e fun v st => .ok (some (st.define name v).done)
    | block body => do
      let ending ← runAllByToken (execByToken n) body st.enter
      return ending.map Ending.leave
    | ifThen condition yes =>
      st.evaluatingByToken condition fun v st =>
        if v.truthy then execByToken n yes st else .ok (some st.done)
    | ifElse condition yes no =>
      st.evaluatingByToken condition fun v st =>
        if v.truthy then execByToken n yes st else execByToken n no st
    | loop condition body =>
      st.evaluatingByToken condition fun v st =>
        if v.truthy then do
          match ← execByToken n body st with
          | some ⟨none, st⟩ => execByToken n (loop condition body) st
          | ending => return ending
        else .ok (some st.done)

end Stmt

/-! ## Nodes and their tokens -/

namespace Expr

/-- The token of an operator node is of the kind that the operator has. -/
def Labelled : Expr → Prop
  | unary op t _ => t.kind = op.kind
  | binary op t _ _ => t.kind = op.kind
  | logical op t _ _ => t.kind = op.kind
  | _ => True

/-- The token of a name is an identifier. -/
def Named : Expr → Prop
  | var name => name.kind = .identifier
  | assign name _ => name.kind = .identifier
  | _ => True

/-- The token of a node, if it has one, is of the kind that the node calls for. -/
def Tagged (node : Expr) : Prop := node.Labelled ∧ node.Named

/-- The token of an operator node is of a kind that such a node can have. -/
def OperatorFits : Expr → Prop
  | unary _ t _ => t.kind ∈ [.bang, .minus]
  | binary _ t _ _ => t.kind ∈ [.plus, .minus, .star, .slash, .equalEqual, .bangEqual, .greater,
      .greaterEqual, .less, .lessEqual]
  | logical _ t _ _ => t.kind ∈ [.andKw, .orKw]
  | _ => True

theorem Labelled.operatorFits {node : Expr} (h : node.Labelled) : node.OperatorFits := by
  cases node with
  | unary op t operand | binary op t left right | logical op t left right =>
    simp only [Labelled, OperatorFits] at h ⊢
    rw [h]
    cases op <;> decide
  | _ => trivial

end Expr

theorem UnaryOp.ofToken_eq {op : UnaryOp} {t : Token} (h : t.kind = op.kind) :
    ofToken t = .ok op := by
  unfold ofToken
  rw [h]
  cases op <;> rfl

theorem BinaryOp.ofToken_eq {op : BinaryOp} {t : Token} (h : t.kind = op.kind) :
    ofToken t = .ok op := by
  unfold ofToken
  rw [h]
  cases op <;> rfl

theorem LogicalOp.ofToken_eq {op : LogicalOp} {t : Token} (h : t.kind = op.kind) :
    ofToken t = op := by
  unfold ofToken
  rw [h]
  cases op <;> rfl

/-! ## The two evaluators agree -/

theorem Evaluated.tryThen_eq (x : Evaluated) {next : Value → Environment → Evaluated}
    {next' : Value → Environment → Except Token Evaluated}
    (h : ∀ v env, next' v env = .ok (next v env)) : x.tryThen next' = .ok (x.andThen next) := by
  obtain ⟨result, env⟩ := x
  cases result with
  | ok v => exact h v env
  | error e => rfl

theorem Expr.evalByToken_eq {e : Expr} (h : ∀ node ∈ e.nodes, node.Labelled) (env : Environment) :
    e.evalByToken env = .ok (e.eval env) := by
  induction e generalizing env with
  | literal v => rfl
  | grouping inner ih => exact ih (List.forall_mem_cons.1 h).2 env
  | unary op t operand ih =>
    obtain ⟨hlabel, hoperand⟩ := List.forall_mem_cons.1 h
    simp only [evalByToken, eval, ih hoperand, UnaryOp.ofToken_eq hlabel, bind, Except.bind]
    exact Evaluated.tryThen_eq _ fun v env => rfl
  | binary op t left right ihl ihr =>
    obtain ⟨hlabel, hboth⟩ := List.forall_mem_cons.1 h
    obtain ⟨hleft, hright⟩ := List.forall_mem_append.1 hboth
    simp only [evalByToken, eval, ihl hleft, ihr hright, BinaryOp.ofToken_eq hlabel, bind,
      Except.bind]
    exact Evaluated.tryThen_eq _ fun a env => Evaluated.tryThen_eq _ fun b env => rfl
  | logical op t left right ihl ihr =>
    obtain ⟨hlabel, hboth⟩ := List.forall_mem_cons.1 h
    obtain ⟨hleft, hright⟩ := List.forall_mem_append.1 hboth
    simp only [evalByToken, eval, ihl hleft, ihr hright, LogicalOp.ofToken_eq hlabel, bind,
      Except.bind]
    refine Evaluated.tryThen_eq _ fun a env => ?_
    split <;> rfl
  | var name =>
    simp only [evalByToken, eval]
    cases env.get? name.lexeme <;> rfl
  | assign name value ih =>
    obtain ⟨-, hvalue⟩ := List.forall_mem_cons.1 h
    simp only [evalByToken, eval, ih hvalue, bind, Except.bind]
    refine Evaluated.tryThen_eq _ fun v env => ?_
    cases env.assign? name.lexeme v <;> rfl

theorem State.evaluatingByToken_eq {e : Expr} (he : ∀ node ∈ e.nodes, node.Labelled) (st : State)
    {next : Value → State → Option Ending} {next' : Value → State → Except Token (Option Ending)}
    (h : ∀ v st, next' v st = .ok (next v st)) :
    st.evaluatingByToken e next' = .ok (st.evaluating e next) := by
  unfold evaluatingByToken evaluating
  rw [Expr.evalByToken_eq he]
  cases hresult : (e.eval st.env).result with
  | ok v =>
    simp only [bind, Except.bind, hresult]
    exact h v _
  | error error => simp only [bind, Except.bind, hresult]; rfl

theorem runAllByToken_eq {run : Stmt → State → Option Ending}
    {run' : Stmt → State → Except Token (Option Ending)} {body : List Stmt}
    (h : ∀ s ∈ body, ∀ st, run' s st = .ok (run s st)) (st : State) :
    runAllByToken run' body st = .ok (runAll run body st) := by
  induction body generalizing st with
  | nil => rfl
  | cons s body ih =>
    obtain ⟨hs, hbody⟩ := List.forall_mem_cons.1 h
    unfold runAllByToken runAll
    rw [hs]
    rcases run s st with _ | ⟨_ | error, st'⟩
    · rfl
    · exact ih hbody st'
    · rfl

theorem Stmt.execByToken_eq {s : Stmt} (h : ∀ node ∈ s.nodes, node.Labelled) (n : Nat)
    (st : State) : s.execByToken n st = .ok (s.exec n st) := by
  induction n generalizing s st with
  | zero => rfl
  | succ n ih =>
    unfold execByToken exec
    cases s with
    | expression e =>
      rw [nodes_expression] at h
      exact st.evaluatingByToken_eq h fun v st => rfl
    | print keyword e =>
      rw [nodes_print] at h
      exact st.evaluatingByToken_eq h fun v st => rfl
    | declare name init =>
      cases init with
      | none => rfl
      | some e =>
        rw [nodes_declare_some] at h
        exact st.evaluatingByToken_eq h fun v st => rfl
    | block body =>
      have hbody : ∀ s ∈ body, ∀ st, execByToken n s st = .ok (exec n s st) := by
        intro s hs st
        refine ih (fun node hnode => h node ?_) st
        rw [nodes_block]
        exact List.mem_flatMap.2 ⟨s, hs, hnode⟩
      dsimp only
      rw [runAllByToken_eq hbody]
      rfl
    | ifThen condition yes =>
      rw [nodes_ifThen, List.forall_mem_append] at h
      refine st.evaluatingByToken_eq h.1 fun v st => ?_
      split
      · exact ih h.2 st
      · rfl
    | ifElse condition yes no =>
      rw [nodes_ifElse, List.forall_mem_append, List.forall_mem_append] at h
      refine st.evaluatingByToken_eq h.1.1 fun v st => ?_
      split
      · exact ih h.1.2 st
      · exact ih h.2 st
    | loop condition body =>
      -- For the next turn the hypothesis is about the whole loop.
      have hagain := fun st => ih h st
      rw [nodes_loop, List.forall_mem_append] at h
      refine st.evaluatingByToken_eq h.1 fun v st => ?_
      split
      · rw [ih h.2]
        rcases body.exec n st with _ | ⟨_ | error, st'⟩
        · rfl
        · exact hagain st'
        · rfl
      · rfl

/-! ## Trees that were parsed or read -/

namespace Grammar

/-- What stands left is tagged. -/
def Symbol.Tagged : Symbol → Prop
  | .more _ left => ∀ node ∈ left.nodes, node.Tagged
  | _ => True

theorem Level.tagged_operand (l : Level) : l.operand.Tagged := by
  cases l <;> trivial

theorem Level.tagged_node {l : Level} {t : Token} {node : Token → Expr → Expr → Expr}
    (h : l.node? t.kind = some node) {left right : Expr}
    (hl : ∀ node ∈ left.nodes, node.Tagged) (hr : ∀ node ∈ right.nodes, node.Tagged) :
    ∀ part ∈ (node t left right).nodes, part.Tagged := by
  have hboth := List.forall_mem_append.2 ⟨hl, hr⟩
  unfold Level.node? at h
  split at h <;> cases h <;> exact List.forall_mem_cons.2 ⟨⟨‹t.kind = _›, trivial⟩, hboth⟩

theorem Derives.tagged {rules : Rules} {symbol : Symbol} {ts bad : List Token} {e : Expr}
    (h : Derives rules symbol ts e bad) (hs : symbol.Tagged) : ∀ node ∈ e.nodes, node.Tagged := by
  induction h with
  | falseWord | trueWord | nilWord | number | string =>
    exact List.forall_mem_singleton.2 ⟨trivial, trivial⟩
  | name hk => exact List.forall_mem_singleton.2 ⟨trivial, hk⟩
  | group _ _ _ ih => exact List.forall_mem_cons.2 ⟨⟨trivial, trivial⟩, ih trivial⟩
  | unary hk _ ih => exact List.forall_mem_cons.2 ⟨⟨hk, trivial⟩, ih trivial⟩
  | primary _ ih | operand _ ih => exact ih trivial
  | @level l _ _ _ _ _ _ _ _ ih ih' => exact ih' (ih l.tagged_operand)
  | done => exact hs
  | @more l _ _ _ _ _ _ _ _ _ hn _ _ ih ih' =>
    exact ih' (Level.tagged_node hn hs (ih l.tagged_operand))
  | assign hname _ _ ih => exact List.forall_mem_cons.2 ⟨⟨trivial, hname⟩, ih trivial⟩
  | badAssign _ _ _ _ _ ih => exact ih trivial

theorem Derives.labelled {rules : Rules} {ts bad : List Token} {e : Expr} {symbol : Symbol}
    (h : Derives rules symbol ts e bad) (hs : symbol.Tagged) : ∀ node ∈ e.nodes, node.Labelled :=
  fun node hnode => (h.tagged hs node hnode).1

end Grammar

theorem PrefixForm.labelled {ts : List Token} {e : Expr} (h : PrefixForm ts e) :
    ∀ node ∈ e.nodes, node.Labelled := by
  induction h with
  | token he => exact (Parser.derives_of_ofToken? he).labelled trivial
  | group _ _ _ _ ih => exact List.forall_mem_cons.2 ⟨trivial, ih⟩
  | unary _ hk _ _ ih => exact List.forall_mem_cons.2 ⟨hk, ih⟩
  | binary _ hk _ _ _ ihl ihr | logical _ hk _ _ _ ihl ihr =>
    exact List.forall_mem_cons.2 ⟨hk, List.forall_mem_append.2 ⟨ihl, ihr⟩⟩
  | assign _ _ _ _ _ ih => exact List.forall_mem_cons.2 ⟨trivial, ih⟩

theorem Stmt.Declared.labelled {s : Stmt} (h : s.Declared) : ∀ node ∈ s.nodes, node.Labelled := by
  intro node hnode
  obtain ⟨part, hpart, hnode⟩ := List.mem_flatMap.1 hnode
  obtain ⟨e, he, hnode⟩ := List.mem_flatMap.1 hnode
  obtain ⟨ts, bad, hderives⟩ := (h.parts part hpart).parsed he
  exact hderives.labelled trivial node hnode

/-- Every operator of a tree is one that the evaluator knows by its token, and going by the tokens
ends in no other way than going by the nodes. -/
theorem operators_are_known :
    (∀ tokens, ∀ s ∈ (parse tokens).statements, (∀ node ∈ s.nodes, node.OperatorFits) ∧
      ∀ n st, s.execByToken n st = .ok (s.exec n st)) ∧
    ∀ e, ((∃ tokens, parseExpression tokens = .ok e) ∨ ∃ text, readExpr text = .ok e) →
      (∀ node ∈ e.nodes, node.OperatorFits) ∧ ∀ env, e.evalByToken env = .ok (e.eval env) := by
  constructor
  · intro tokens s hs
    have hlabelled := (declared_of_mem_parse hs).labelled
    exact ⟨fun node hnode => (hlabelled node hnode).operatorFits, Stmt.execByToken_eq hlabelled⟩
  · intro e he
    have hlabelled : ∀ node ∈ e.nodes, node.Labelled := by
      rcases he with ⟨tokens, h⟩ | ⟨text, h⟩
      · obtain ⟨bad, hderives⟩ := Parser.derives_of_parseExpression h
        exact hderives.labelled trivial
      · exact (readExpr_eq_ok_iff.1 h).2.labelled
    exact ⟨fun node hnode => (hlabelled node hnode).operatorFits, Expr.evalByToken_eq hlabelled⟩

/-- The first statement of the source is faulty, and the second one has two operators. -/
theorem operators_are_known_after_error : ∃ s, (parse (scan "a + ; !a or b;").tokens).errors ≠ [] ∧
    s ∈ (parse (scan "a + ; !a or b;").tokens).statements ∧ s.nodes.length = 4 ∧
    (∀ node ∈ s.nodes, node.OperatorFits) ∧ ∀ n st, s.execByToken n st = .ok (s.exec n st) := by
  have hfaulty : (parse (scan "a + ; !a or b;").tokens).errors ≠ [] := by decide +kernel
  have hbuilt : (parse (scan "a + ; !a or b;").tokens).statements.any (·.nodes.length = 4) := by
    decide +kernel
  obtain ⟨s, hs, hnodes⟩ := List.any_eq_true.1 hbuilt
  obtain ⟨hfits, hexec⟩ := operators_are_known.1 _ s hs
  exact ⟨s, hfaulty, hs, by simpa using hnodes, hfits, hexec⟩

end Treewalk
