import Treewalk.Syntax.Tree

/-!
# The grammar

```
program     → declaration*
declaration → "var" IDENTIFIER ( "=" expression )? ";" | statement
statement   → "if" "(" expression ")" statement ( "else" statement )?
            | "while" "(" expression ")" statement
            | "{" declaration* "}"
            | "scream" expression ";"
            | expression ";"
expression  → assignment
assignment  → IDENTIFIER "=" assignment | or
or          → and ( "or" and )*
and         → equality ( "and" equality )*
equality    → comparison ( ( "==" | "!=" ) comparison )*
comparison  → term ( ( ">" | ">=" | "<" | "<=" ) term )*
term        → factor ( ( "-" | "+" ) factor )*
factor      → unary ( ( "/" | "*" ) unary )*
unary       → ( "!" | "-" ) unary | primary
primary     → "true" | "false" | "nil" | NUMBER | STRING | IDENTIFIER | "(" expression ")"
```

A derivation reads a list of tokens, of which only the kinds matter, as a tree. Beside the tree it
lists, in order, every `=` whose left side is not a name. `Rules` says whether there may be any.
-/

namespace Treewalk

open Token (Kind)

theorem UnaryOp.find?_all {kind : Kind} {op : UnaryOp} :
    all.find? (·.kind = kind) = some op ↔ kind = op.kind := by
  cases op <;> cases kind <;> decide

theorem BinaryOp.find?_all {kind : Kind} {op : BinaryOp} :
    all.find? (·.kind = kind) = some op ↔ kind = op.kind := by
  cases op <;> cases kind <;> decide

theorem LogicalOp.find?_all {kind : Kind} {op : LogicalOp} :
    all.find? (·.kind = kind) = some op ↔ kind = op.kind := by
  cases op <;> cases kind <;> decide

namespace Grammar

structure Rules where
  /-- May any `or` stand left of `=`, or only a name? -/
  anyTarget : Bool
  /-- May an `else` belong to any `if` before it, or only to the nearest? -/
  anyIf : Bool

/-- The grammar above. -/
def strict : Rules := ⟨false, false⟩

/-- With `assignment → or ( "=" assignment )?`. -/
def relaxed : Rules := ⟨true, false⟩

/-! ## Expressions -/

inductive Level where
  | or | and | equality | comparison | term | factor
deriving DecidableEq

/-- The operators of a level, and the node that each makes. -/
def Level.node? : Level → Kind → Option (Token → Expr → Expr → Expr)
  | or, .orKw => some (.logical .or)
  | and, .andKw => some (.logical .and)
  | equality, .equalEqual => some (.binary .equal)
  | equality, .bangEqual => some (.binary .notEqual)
  | comparison, .greater => some (.binary .greater)
  | comparison, .greaterEqual => some (.binary .greaterEqual)
  | comparison, .less => some (.binary .less)
  | comparison, .lessEqual => some (.binary .lessEqual)
  | term, .minus => some (.binary .subtract)
  | term, .plus => some (.binary .add)
  | factor, .slash => some (.binary .divide)
  | factor, .star => some (.binary .multiply)
  | _, _ => none

inductive Symbol where
  | assignment
  | level (l : Level)
  /-- The `( operator operand )*` of a level, after what stands left of it. -/
  | more (l : Level) (left : Expr)
  | unary
  | primary

/-- What stands between the operators of a level. -/
def Level.operand : Level → Symbol
  | or => .level .and
  | and => .level .equality
  | equality => .level .comparison
  | comparison => .level .term
  | term => .level .factor
  | factor => .unary

def literalValue : Option Literal → Value
  | some (.number x) => .number x
  | some (.string s) => .string s
  | none => .nil

/-- `Derives rules symbol ts e bad`: the symbol derives `ts`, the tree is `e`, and `bad` are the
`=` tokens whose left side is not a name. -/
inductive Derives (rules : Rules) : Symbol → List Token → Expr → List Token → Prop
  | falseWord {t} : t.kind = .falseKw → Derives rules .primary [t] (.literal (.bool false)) []
  | trueWord {t} : t.kind = .trueKw → Derives rules .primary [t] (.literal (.bool true)) []
  | nilWord {t} : t.kind = .nilKw → Derives rules .primary [t] (.literal .nil) []
  | number {t} : t.kind = .number →
    Derives rules .primary [t] (.literal (literalValue t.literal)) []
  | string {t} : t.kind = .string →
    Derives rules .primary [t] (.literal (literalValue t.literal)) []
  | name {t} : t.kind = .identifier → Derives rules .primary [t] (.var t) []
  | group {o c ts e bad} : o.kind = .leftParen → Derives rules .assignment ts e bad →
    c.kind = .rightParen → Derives rules .primary (o :: ts ++ [c]) (.grouping e) bad
  | unary {t op ts e bad} : t.kind = UnaryOp.kind op → Derives rules .unary ts e bad →
    Derives rules .unary (t :: ts) (.unary op t e) bad
  | primary {ts e bad} : Derives rules .primary ts e bad → Derives rules .unary ts e bad
  | level {l ts us first e bad bad'} : Derives rules (Level.operand l) ts first bad →
    Derives rules (.more l first) us e bad' → Derives rules (.level l) (ts ++ us) e (bad ++ bad')
  | done {l left} : Derives rules (.more l left) [] left []
  -- The leftmost operator binds first: what follows has the new node on its left.
  | more {l left t node ts us right e bad bad'} : Level.node? l t.kind = some node →
    Derives rules (Level.operand l) ts right bad →
    Derives rules (.more l (node t left right)) us e bad' →
    Derives rules (.more l left) (t :: ts ++ us) e (bad ++ bad')
  | operand {ts e bad} : Derives rules (.level .or) ts e bad → Derives rules .assignment ts e bad
  | assign {name equals ts e bad} : name.kind = .identifier → equals.kind = .equal →
    Derives rules .assignment ts e bad →
    Derives rules .assignment (name :: equals :: ts) (.assign name e) bad
  -- The tree keeps the left side and loses the right one.
  | badAssign {equals ts us left e bad bad'} : rules.anyTarget = true →
    Derives rules (.level .or) ts left bad → (∀ name, name.kind = .identifier → ts ≠ [name]) →
    equals.kind = .equal → Derives rules .assignment us e bad' →
    Derives rules .assignment (ts ++ equals :: us) left (bad ++ equals :: bad')

theorem Level.node_ne_var {l : Level} {kind : Kind} {node : Token → Expr → Expr → Expr}
    (h : l.node? kind = some node) (t : Token) (left right : Expr) (name : Token) :
    node t left right ≠ .var name := by
  unfold Level.node? at h
  split at h <;> cases h <;> simp

/-- The symbols that derive something. The others may derive nothing, and then the tree is what
stands left. -/
def Symbol.Solid : Symbol → Prop
  | .more _ _ => False
  | _ => True

theorem Level.solid_operand (l : Level) : l.operand.Solid := by
  cases l <;> trivial

variable {rules : Rules} {symbol : Symbol} {ts bad : List Token} {e : Expr}

theorem Derives.ne_nil (h : Derives rules symbol ts e bad) (hs : symbol.Solid) : ts ≠ [] := by
  induction h with
  | @level l _ _ _ _ _ _ _ _ ih _ =>
    have := ih l.solid_operand
    simp [this]
  | done | more => exact hs.elim
  | primary _ ih => exact ih trivial
  | operand _ ih => exact ih trivial
  | _ => simp

theorem Derives.eq_left {l : Level} {left : Expr} (h : Derives rules (.more l left) [] e bad) :
    e = left ∧ bad = [] := by
  generalize hts : [] = us at h
  cases h with
  | done => exact ⟨rfl, rfl⟩
  | more => simp at hts

theorem Derives.left_eq_name (h : Derives rules symbol ts e bad) {name : Token}
    (he : e = .var name) {l : Level} {left : Expr} (hs : symbol = .more l left) :
    left = .var name ∧ ts = [] ∧ bad = [] := by
  induction h generalizing left with
  | done => cases hs; exact ⟨he, rfl, rfl⟩
  | more hn _ _ _ ih => cases hs; exact absurd (ih he rfl).1 (Level.node_ne_var hn _ _ _ _)
  | _ => cases hs

/-! ### What may follow -/

def Level.rank : Level → Nat
  | or => 0
  | and => 1
  | equality => 2
  | comparison => 3
  | term => 4
  | factor => 5

/-- Would a token of this kind go on with the symbol? -/
def Symbol.GoesOn : Symbol → Kind → Prop
  | .assignment, kind => kind = .equal ∨ ∃ l : Level, (l.node? kind).isSome
  | .level l, kind | .more l _, kind => ∃ m : Level, l.rank ≤ m.rank ∧ (m.node? kind).isSome
  | _, _ => False

/-- No token of `rest` goes on with the symbol. -/
def Symbol.Ends (symbol : Symbol) (rest : List Token) : Prop :=
  ∀ t ∈ rest.head?, ¬ symbol.GoesOn t.kind

theorem ends_assignment {t : Token} (hk : t.kind = .rightParen ∨ t.kind = .semicolon)
    (rest : List Token) : Symbol.assignment.Ends (t :: rest) := by
  intro u hu
  obtain rfl : t = u := by simpa using hu
  rintro (h | ⟨l, h⟩) <;> rcases hk with hk | hk <;> rw [hk] at h
  · cases h
  · cases h
  · cases l <;> cases h
  · cases l <;> cases h

theorem Level.eq_of_isSome {l m : Level} {kind : Kind} (hl : (l.node? kind).isSome)
    (hm : (m.node? kind).isSome) : l = m := by
  unfold Level.node? at hl
  split at hl <;> cases m <;> simp_all [Level.node?]

theorem Level.goesOn_operand {l : Level} {kind : Kind} (h : l.operand.GoesOn kind) :
    ∃ m : Level, l.rank < m.rank ∧ (m.node? kind).isSome := by
  cases l with
  | factor => exact h.elim
  | _ => obtain ⟨m, hm, h⟩ := h; exact ⟨m, hm, h⟩

theorem Level.ends_operand {l : Level} {left : Expr} {rest : List Token}
    (h : (Symbol.more l left).Ends rest) : l.operand.Ends rest := by
  intro t ht hop
  obtain ⟨m, hm, hsome⟩ := goesOn_operand hop
  exact h t ht ⟨m, Nat.le_of_lt hm, hsome⟩

theorem Derives.ends_operand {l : Level} {left : Expr} {rest : List Token}
    (h : Derives rules (.more l left) ts e bad) (hrest : (Symbol.more l left).Ends rest) :
    l.operand.Ends (ts ++ rest) := by
  cases h with
  | done => exact Level.ends_operand hrest
  | more hn =>
    intro u hu hop
    obtain ⟨m, hm, hsome⟩ := Level.goesOn_operand hop
    simp only [List.cons_append, List.head?_cons, Option.mem_some_iff] at hu
    subst hu
    have := Level.eq_of_isSome (l := l) (by simp [hn]) hsome
    subst this
    exact Nat.lt_irrefl _ hm

theorem Derives.eq_name (h : Derives rules symbol ts e bad) {name : Token} (he : e = .var name)
    (hs : symbol.Solid) (ha : symbol ≠ .assignment) :
    ts = [name] ∧ name.kind = .identifier ∧ bad = [] := by
  induction h with
  | name hk => cases he; exact ⟨rfl, hk, rfl⟩
  | primary _ ih => exact ih he trivial (by simp)
  | @level l _ _ _ _ _ _ _ hmore ih _ =>
    obtain ⟨hfirst, rfl, rfl⟩ := hmore.left_eq_name he rfl
    rw [List.append_nil, List.append_nil]
    exact ih hfirst l.solid_operand (by cases l <;> simp [Level.operand])
  | done | more => exact hs.elim
  | operand | assign | badAssign => exact absurd rfl ha
  | _ => cases he

theorem Derives.eq_var (h : Derives rules symbol ts e bad) {name : Token} (hts : ts = [name])
    (hk : name.kind = .identifier) (hs : symbol.Solid) : e = .var name := by
  induction h with
  | name => cases hts; rfl
  | primary _ ih => exact ih hts trivial
  | operand _ ih => exact ih hts trivial
  | @level l _ _ _ _ _ _ hfirst hmore ih _ =>
    obtain ⟨h, -⟩ | ⟨rfl, rfl⟩ := List.append_eq_singleton_iff.1 hts
    · exact absurd h (hfirst.ne_nil l.solid_operand)
    · rw [hmore.eq_left.1]
      exact ih rfl l.solid_operand
  | done | more => exact hs.elim
  | unary _ hu => simp [hu.ne_nil trivial] at hts
  | badAssign _ hleft =>
    have := hleft.ne_nil trivial
    simp [List.append_eq_singleton_iff, this] at hts
  | _ => simp_all

/-! ## Statements -/

/-- Does it end in an `if` without an `else`? The nearest `if` to an `else` after it is then
inside it. -/
def takesElse : Stmt → Bool
  | .ifThen _ _ => true
  | .ifElse _ _ no => takesElse no
  | .loop _ body => takesElse body
  | _ => false

mutual

inductive Declaration (rules : Rules) : List Token → Stmt → List Token → Prop
  | var {v name semi} : v.kind = .varKw → name.kind = .identifier → semi.kind = .semicolon →
    Declaration rules [v, name, semi] (.declare name none) []
  | init {v name equals semi ts e bad} : v.kind = .varKw → name.kind = .identifier →
    equals.kind = .equal → Derives rules .assignment ts e bad → semi.kind = .semicolon →
    Declaration rules (v :: name :: equals :: ts ++ [semi]) (.declare name (some e)) bad
  | statement {ts s bad} : Statement rules ts s bad → Declaration rules ts s bad

inductive Statement (rules : Rules) : List Token → Stmt → List Token → Prop
  | ifThen {i o c ts us condition yes bad bad'} : i.kind = .ifKw → o.kind = .leftParen →
    Derives rules .assignment ts condition bad → c.kind = .rightParen →
    Statement rules us yes bad' →
    Statement rules (i :: o :: ts ++ c :: us) (.ifThen condition yes) (bad ++ bad')
  | ifElse {i o c other ts us vs condition yes no bad bad' bad''} : i.kind = .ifKw →
    o.kind = .leftParen → Derives rules .assignment ts condition bad → c.kind = .rightParen →
    Statement rules us yes bad' → (rules.anyIf = false → takesElse yes = false) →
    other.kind = .elseKw → Statement rules vs no bad'' →
    Statement rules (i :: o :: ts ++ c :: us ++ other :: vs) (.ifElse condition yes no)
      (bad ++ bad' ++ bad'')
  | loop {w o c ts us condition body bad bad'} : w.kind = .whileKw → o.kind = .leftParen →
    Derives rules .assignment ts condition bad → c.kind = .rightParen →
    Statement rules us body bad' →
    Statement rules (w :: o :: ts ++ c :: us) (.loop condition body) (bad ++ bad')
  | block {o c ts body bad} : o.kind = .leftBrace → Declarations rules ts body bad →
    c.kind = .rightBrace → Statement rules (o :: ts ++ [c]) (.block body) bad
  | print {keyword semi ts e bad} : keyword.kind = .printKw → Derives rules .assignment ts e bad →
    semi.kind = .semicolon → Statement rules (keyword :: ts ++ [semi]) (.print keyword e) bad
  | expression {semi ts e bad} : Derives rules .assignment ts e bad → semi.kind = .semicolon →
    Statement rules (ts ++ [semi]) (.expression e) bad

/-- What `declaration*` derives. This is also what a program is. -/
inductive Declarations (rules : Rules) : List Token → List Stmt → List Token → Prop
  | nil : Declarations rules [] [] []
  | cons {ts us s body bad bad'} : Declaration rules ts s bad → Declarations rules us body bad' →
    Declarations rules (ts ++ us) (s :: body) (bad ++ bad')

end

/-! ### How they start -/

/-- The kinds that an expression can start with. -/
def opens : Kind → Bool
  | .falseKw | .trueKw | .nilKw | .number | .string | .identifier | .leftParen | .bang
  | .minus => true
  | _ => false

theorem Derives.head (h : Derives rules symbol ts e bad) (hs : symbol.Solid) :
    ∃ t us, ts = t :: us ∧ opens t.kind := by
  induction h with
  | falseWord hk | trueWord hk | nilWord hk | number hk | string hk | name hk | group hk | assign hk =>
    exact ⟨_, _, rfl, by simp [hk, opens]⟩
  | @unary _ op _ _ _ hk => exact ⟨_, _, rfl, by cases op <;> simp [hk, opens, UnaryOp.kind]⟩
  | primary _ ih => exact ih trivial
  | operand _ ih => exact ih trivial
  | @level l _ _ _ _ _ _ _ _ ih =>
    obtain ⟨t, us, rfl, ht⟩ := ih l.solid_operand
    exact ⟨t, _, rfl, ht⟩
  | badAssign _ _ _ _ _ ih =>
    obtain ⟨t, us, rfl, ht⟩ := ih trivial
    exact ⟨t, _, rfl, ht⟩
  | done | more => exact hs.elim

variable {s : Stmt} {body : List Stmt}

theorem Statement.head (h : Statement rules ts s bad) :
    ∃ t us, ts = t :: us ∧ t.kind ≠ .elseKw ∧ t.kind ≠ .rightBrace ∧ t.kind ≠ .varKw := by
  cases h with
  | ifThen hk | ifElse hk | loop hk | block hk | print hk =>
    exact ⟨_, _, rfl, by simp [hk], by simp [hk], by simp [hk]⟩
  | expression hd =>
    obtain ⟨t, us, rfl, ht⟩ := hd.head trivial
    exact ⟨t, _, rfl, fun h => by simp [h, opens] at ht, fun h => by simp [h, opens] at ht,
      fun h => by simp [h, opens] at ht⟩

theorem Declaration.head (h : Declaration rules ts s bad) :
    ∃ t us, ts = t :: us ∧ t.kind ≠ .elseKw ∧ t.kind ≠ .rightBrace := by
  cases h with
  | var hk | init hk => exact ⟨_, _, rfl, by simp [hk], by simp [hk]⟩
  | statement h =>
    obtain ⟨t, us, rfl, h1, h2, -⟩ := h.head
    exact ⟨t, us, rfl, h1, h2⟩

theorem Declarations.append {ts us bad bad' : List Token} {body more : List Stmt}
    (h : Declarations rules ts body bad) (h' : Declarations rules us more bad') :
    Declarations rules (ts ++ us) (body ++ more) (bad ++ bad') :=
  match h with
  | .nil => h'
  | .cons hd htail => by
    have := Declarations.cons hd (htail.append h')
    simpa using this

/-! ### From one grammar to another -/

variable {rules' : Rules}

theorem Derives.of_rules (h : Derives rules symbol ts e bad)
    (hbad : bad = [] ∨ rules'.anyTarget = true) : Derives rules' symbol ts e bad := by
  induction h with
  | falseWord hk => exact .falseWord hk
  | trueWord hk => exact .trueWord hk
  | nilWord hk => exact .nilWord hk
  | number hk => exact .number hk
  | string hk => exact .string hk
  | name hk => exact .name hk
  | group ho _ hc ih => exact .group ho (ih hbad) hc
  | unary hk _ ih => exact .unary hk (ih hbad)
  | primary _ ih => exact .primary (ih hbad)
  | level _ _ ih ih' =>
    rw [List.append_eq_nil_iff] at hbad
    exact .level (ih (hbad.imp_left And.left)) (ih' (hbad.imp_left And.right))
  | done => exact .done
  | more hn _ _ ih ih' =>
    rw [List.append_eq_nil_iff] at hbad
    exact .more hn (ih (hbad.imp_left And.left)) (ih' (hbad.imp_left And.right))
  | operand _ ih => exact .operand (ih hbad)
  | assign hname hk _ ih => exact .assign hname hk (ih hbad)
  | badAssign _ _ hne hk _ ih ih' =>
    have hany : rules'.anyTarget = true := hbad.resolve_left (by simp)
    exact .badAssign hany (ih (.inr hany)) hne hk (ih' (.inr hany))

theorem Derives.bad_eq_nil (h : Derives rules symbol ts e bad) (hr : rules.anyTarget = false) :
    bad = [] := by
  induction h with
  | group _ _ _ ih => exact ih
  | unary _ _ ih => exact ih
  | primary _ ih => exact ih
  | level _ _ ih ih' => rw [ih, ih']; rfl
  | more _ _ _ ih ih' => rw [ih, ih']; rfl
  | operand _ ih => exact ih
  | assign _ _ _ ih => exact ih
  | badAssign hany => rw [hr] at hany; cases hany
  | _ => rfl

theorem Derives.of_anyTarget (h : Derives rules symbol ts e bad)
    (heq : rules'.anyTarget = rules.anyTarget) : Derives rules' symbol ts e bad := by
  cases hany : rules.anyTarget with
  | false => exact h.of_rules (.inl (h.bad_eq_nil hany))
  | true => exact h.of_rules (.inr (heq.trans hany))

mutual

theorem Statement.of_rules {ts bad : List Token} {s : Stmt} (h : Statement rules ts s bad)
    (hbad : bad = [] ∨ rules'.anyTarget = true)
    (hif : rules.anyIf = true → rules'.anyIf = true) : Statement rules' ts s bad :=
  match h with
  | .ifThen hi ho hd hc hyes => by
    rw [List.append_eq_nil_iff] at hbad
    exact .ifThen hi ho (hd.of_rules (hbad.imp_left And.left)) hc
      (hyes.of_rules (hbad.imp_left And.right) hif)
  | .ifElse hi ho hd hc hyes hclosed hk hno => by
    rw [List.append_eq_nil_iff, List.append_eq_nil_iff] at hbad
    have hfirst := hbad.imp_left And.left
    refine .ifElse hi ho (hd.of_rules (hfirst.imp_left And.left)) hc
      (hyes.of_rules (hfirst.imp_left And.right) hif) (fun h => hclosed ?_) hk
      (hno.of_rules (hbad.imp_left And.right) hif)
    cases hany : rules.anyIf with
    | false => rfl
    | true => rw [hif hany] at h; cases h
  | .loop hw ho hd hc hbody => by
    rw [List.append_eq_nil_iff] at hbad
    exact .loop hw ho (hd.of_rules (hbad.imp_left And.left)) hc
      (hbody.of_rules (hbad.imp_left And.right) hif)
  | .block ho hbody hc => .block ho (hbody.of_rules hbad hif) hc
  | .print hk hd hs => .print hk (hd.of_rules hbad) hs
  | .expression hd hs => .expression (hd.of_rules hbad) hs

theorem Declaration.of_rules {ts bad : List Token} {s : Stmt} (h : Declaration rules ts s bad)
    (hbad : bad = [] ∨ rules'.anyTarget = true)
    (hif : rules.anyIf = true → rules'.anyIf = true) : Declaration rules' ts s bad :=
  match h with
  | .var hv hname hs => .var hv hname hs
  | .init hv hname hk hd hs => .init hv hname hk (hd.of_rules hbad) hs
  | .statement hs => .statement (hs.of_rules hbad hif)

theorem Declarations.of_rules {ts bad : List Token} {body : List Stmt}
    (h : Declarations rules ts body bad) (hbad : bad = [] ∨ rules'.anyTarget = true)
    (hif : rules.anyIf = true → rules'.anyIf = true) : Declarations rules' ts body bad :=
  match h with
  | .nil => .nil
  | .cons hd hbody => by
    rw [List.append_eq_nil_iff] at hbad
    exact .cons (hd.of_rules (hbad.imp_left And.left) hif)
      (hbody.of_rules (hbad.imp_left And.right) hif)

end

mutual

theorem Statement.bad_eq_nil {ts bad : List Token} {s : Stmt} (h : Statement rules ts s bad)
    (hr : rules.anyTarget = false) : bad = [] :=
  match h with
  | .ifThen _ _ hd _ hyes => by rw [hd.bad_eq_nil hr, hyes.bad_eq_nil hr]; rfl
  | .ifElse _ _ hd _ hyes _ _ hno => by
    rw [hd.bad_eq_nil hr, hyes.bad_eq_nil hr, hno.bad_eq_nil hr]; rfl
  | .loop _ _ hd _ hbody => by rw [hd.bad_eq_nil hr, hbody.bad_eq_nil hr]; rfl
  | .block _ hbody _ => hbody.bad_eq_nil hr
  | .print _ hd _ => hd.bad_eq_nil hr
  | .expression hd _ => hd.bad_eq_nil hr

theorem Declaration.bad_eq_nil {ts bad : List Token} {s : Stmt} (h : Declaration rules ts s bad)
    (hr : rules.anyTarget = false) : bad = [] :=
  match h with
  | .var .. => rfl
  | .init _ _ _ hd _ => hd.bad_eq_nil hr
  | .statement hs => hs.bad_eq_nil hr

theorem Declarations.bad_eq_nil {ts bad : List Token} {body : List Stmt}
    (h : Declarations rules ts body bad) (hr : rules.anyTarget = false) : bad = [] :=
  match h with
  | .nil => rfl
  | .cons hd hbody => by rw [hd.bad_eq_nil hr, hbody.bad_eq_nil hr]; rfl

end

theorem Statement.attach {us vs bad bad' : List Token} {yes no : Stmt} {other : Token}
    (h : Statement rules us yes bad) (htakes : takesElse yes = true) (hk : other.kind = .elseKw)
    (hno : Statement rules vs no bad') :
    ∃ s, Statement rules (us ++ other :: vs) s (bad ++ bad') :=
  match h with
  | @Statement.ifThen _ _ _ _ _ _ _ inner _ _ hi ho hd hc hinner => by
    cases htakes : takesElse inner with
    | true =>
      obtain ⟨s, hs⟩ := hinner.attach htakes hk hno
      exact ⟨_, by simpa using Statement.ifThen hi ho hd hc hs⟩
    | false => exact ⟨_, .ifElse hi ho hd hc hinner (fun _ => htakes) hk hno⟩
  | .ifElse hi ho hd hc hinner hclosed hk' hno' => by
    obtain ⟨s, hs⟩ := hno'.attach htakes hk hno
    exact ⟨_, by simpa using Statement.ifElse hi ho hd hc hinner hclosed hk' hs⟩
  | .loop hw ho hd hc hbody => by
    obtain ⟨s, hs⟩ := hbody.attach htakes hk hno
    exact ⟨_, by simpa using Statement.loop hw ho hd hc hs⟩
  | .block .. => by cases htakes
  | .print .. => by cases htakes
  | .expression .. => by cases htakes

/-- The same rules, but an `else` belongs to the nearest `if`. -/
def Rules.nearest (rules : Rules) : Rules := { rules with anyIf := false }

mutual

/-- The rule on `else` chooses between derivations. It never leaves none. -/
theorem Statement.nearest {ts bad : List Token} {s : Stmt} (h : Statement rules ts s bad) :
    ∃ s', Statement rules.nearest ts s' bad :=
  match h with
  | .ifThen hi ho hd hc hyes => by
    obtain ⟨_, hyes'⟩ := hyes.nearest
    exact ⟨_, .ifThen hi ho (hd.of_anyTarget rfl) hc hyes'⟩
  | @Statement.ifElse _ _ _ _ _ ts _ _ _ _ _ bad _ _ hi ho hd hc hyes _ hk hno => by
    obtain ⟨yes', hyes'⟩ := hyes.nearest
    obtain ⟨_, hno'⟩ := hno.nearest
    have hd' : Derives rules.nearest .assignment ts _ bad := hd.of_anyTarget rfl
    cases htakes : takesElse yes' with
    | true =>
      obtain ⟨s, hs⟩ := hyes'.attach htakes hk hno'
      exact ⟨_, by simpa using Statement.ifThen hi ho hd' hc hs⟩
    | false => exact ⟨_, .ifElse hi ho hd' hc hyes' (fun _ => htakes) hk hno'⟩
  | .loop hw ho hd hc hbody => by
    obtain ⟨_, hbody'⟩ := hbody.nearest
    exact ⟨_, .loop hw ho (hd.of_anyTarget rfl) hc hbody'⟩
  | .block ho hbody hc => by
    obtain ⟨_, hbody'⟩ := hbody.nearest
    exact ⟨_, .block ho hbody' hc⟩
  | .print hk hd hs => ⟨_, .print hk (hd.of_anyTarget rfl) hs⟩
  | .expression hd hs => ⟨_, .expression (hd.of_anyTarget rfl) hs⟩

theorem Declaration.nearest {ts bad : List Token} {s : Stmt} (h : Declaration rules ts s bad) :
    ∃ s', Declaration rules.nearest ts s' bad :=
  match h with
  | .var hv hname hs => ⟨_, .var hv hname hs⟩
  | .init hv hname hk hd hs => ⟨_, .init hv hname hk (hd.of_anyTarget rfl) hs⟩
  | .statement hs => by
    obtain ⟨_, hs'⟩ := hs.nearest
    exact ⟨_, .statement hs'⟩

theorem Declarations.nearest {ts bad : List Token} {body : List Stmt}
    (h : Declarations rules ts body bad) : ∃ body', Declarations rules.nearest ts body' bad :=
  match h with
  | .nil => ⟨_, .nil⟩
  | .cons hd hbody => by
    obtain ⟨_, hd'⟩ := hd.nearest
    obtain ⟨_, hbody'⟩ := hbody.nearest
    exact ⟨_, .cons hd' hbody'⟩

end

end Grammar

end Treewalk
