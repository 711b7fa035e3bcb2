import Treewalk.Syntax.Nesting
import Treewalk.Syntax.Parser

/-!
# The knots of the parser

`expression` and `statement` stand inside themselves. What is inside follows a token each time,
so both are guarded, and the bounds on nesting can be forgotten: `expression_eq` and
`statement_eq`.
-/

namespace Treewalk.Parser

open Token (Kind)

variable {α β : Type}

/-- Both do the same with fewer than `n` tokens. -/
def Agree (n : Nat) (p q : Parser α) : Prop := ∀ ts : List Token, ts.length < n → p ts = q ts

theorem Agree.refl (n : Nat) (p : Parser α) : Agree n p p := fun _ _ => rfl

/-! ## Combinators -/

theorem shrinks_pure (a : α) : Shrinks (pure a : Parser α) := fun _ => Nat.le_refl _

theorem shrinks_bind {p : Parser α} {f : α → Parser β} (hp : Shrinks p)
    (hf : ∀ a, Shrinks (f a)) : Shrinks (p >>= f) := by
  intro ts
  show (Parser.bind p f ts).rest.length ≤ _
  have hrest := hp ts
  unfold Parser.bind
  rcases hpts : p ts with ⟨_ | a, mid, noted⟩ <;> rw [hpts] at hrest
  · exact hrest
  · exact Nat.le_trans (hf a mid) hrest

theorem shrinks_map {f : α → β} {p : Parser α} (hp : Shrinks p) : Shrinks (f <$> p) :=
  shrinks_bind hp fun a => shrinks_pure (f a)

theorem shrinks_accept (kind : Kind) : Shrinks (accept kind) := by
  intro ts
  cases ts with
  | nil => exact Nat.le_refl _
  | cons t ts => by_cases h : t.kind = kind <;> simp [accept, h]

theorem shrinks_expect (kind : Kind) (what : Expectation) : Shrinks (expect kind what) := by
  refine shrinks_bind (shrinks_accept kind) fun t => ?_
  cases t with
  | none => exact shrinks_fail what
  | some t => exact shrinks_pure t

theorem shrinks_note (cause : SyntaxError.Cause) (t : Token) : Shrinks (note cause t) :=
  fun _ => Nat.le_refl _

theorem agree_bind {n : Nat} {p q : Parser α} {f g : α → Parser β} (hpq : Agree n p q)
    (hp : Shrinks p) (hfg : ∀ a, Agree n (f a) (g a)) : Agree n (p >>= f) (q >>= g) := by
  intro ts hts
  show Parser.bind p f ts = Parser.bind q g ts
  unfold Parser.bind
  rw [← hpq ts hts]
  have hrest := hp ts
  rcases hpts : p ts with ⟨_ | a, mid, noted⟩
  · rfl
  · rw [hpts] at hrest
    simp only [hfg a mid (Nat.lt_of_le_of_lt hrest hts)]

theorem agree_map {n : Nat} {f : α → β} {p q : Parser α} (hpq : Agree n p q) (hp : Shrinks p) :
    Agree n (f <$> p) (f <$> q) :=
  agree_bind hpq hp fun _ => .refl n _

theorem agree_accept {n : Nat} {kind : Kind} {f g : Option Token → Parser β}
    (hnone : Agree (n + 1) (f none) (g none)) (hsome : ∀ t, Agree n (f (some t)) (g (some t))) :
    Agree (n + 1) (accept kind >>= f) (accept kind >>= g) := by
  intro ts hts
  show Parser.bind _ f ts = Parser.bind _ g ts
  unfold Parser.bind
  cases ts with
  | nil => simp only [accept]; rw [hnone [] hts]
  | cons t ts =>
    by_cases h : t.kind = kind
    · simp only [accept, h, if_true]
      rw [hsome t ts (by simpa using hts)]
    · simp only [accept, h, if_false]
      rw [hnone _ hts]

/-! ## Expressions -/

theorem shrinks_primary {p : Parser Expr} (hp : Shrinks p) : Shrinks (primary p) := by
  intro ts
  unfold primary
  split
  · next t ts =>
    split
    · simp
    · split
      · have h := shrinks_bind hp fun inner =>
          shrinks_bind (shrinks_expect .rightParen .parenAfterExpression) fun _ =>
            shrinks_pure (Expr.grouping inner)
        exact Nat.le_succ_of_le (h ts)
      · exact Nat.le_refl _
  · exact Nat.le_refl _

theorem agree_primary {n : Nat} {p q : Parser Expr} (hpq : Agree n p q) (hp : Shrinks p) :
    Agree (n + 1) (primary p) (primary q) := by
  intro ts hts
  unfold primary
  split
  · next t ts =>
    split
    · rfl
    · split
      · exact agree_bind hpq hp (fun _ => .refl n _) ts (by simpa using hts)
      · rfl
  · rfl

theorem shrinks_unary {p : Parser Expr} (hp : Shrinks p) : Shrinks (unary p) := by
  intro ts
  induction ts with
  | nil => exact hp []
  | cons t ts ih =>
    unfold unary
    split
    · exact Nat.le_succ_of_le ih
    · exact hp (t :: ts)

theorem agree_unary {n : Nat} {p q : Parser Expr} (hpq : Agree n p q) :
    Agree n (unary p) (unary q) := by
  intro ts
  induction ts with
  | nil => exact hpq []
  | cons t ts ih =>
    intro hts
    unfold unary
    split
    · rw [ih (Nat.lt_of_succ_lt hts)]
    · exact hpq _ hts

theorem shrinks_operations (level : Level) {operand : Parser Expr} (h : Shrinks operand) :
    ∀ rounds left, Shrinks (operations level operand rounds left)
  | [], left => shrinks_pure left
  | _ :: rounds, left => by
    intro ts
    cases ts with
    | nil => exact Nat.le_refl _
    | cons t ts =>
      unfold operations
      dsimp only
      split
      · next build _ =>
        have hs := shrinks_bind h fun right =>
          shrinks_operations level h rounds (build left right)
        exact Nat.le_succ_of_le (hs ts)
      · exact Nat.le_refl _

theorem agree_operations {n : Nat} (level : Level) {p q : Parser Expr} (hpq : Agree n p q)
    (hp : Shrinks p) :
    ∀ rounds left, Agree n (operations level p rounds left) (operations level q rounds left)
  | [], left => .refl n _
  | _ :: rounds, left => by
    intro ts hts
    cases ts with
    | nil => rfl
    | cons t ts =>
      unfold operations
      dsimp only
      split
      · next build _ =>
        have h := agree_bind hpq hp fun right =>
          agree_operations level hpq hp rounds (build left right)
        exact h ts (Nat.lt_of_succ_lt hts)
      · rfl

theorem operations_eq {level : Level} {operand : Parser Expr} (h : Shrinks operand) :
    ∀ (b c ts : List Token) (left : Expr), ts.length ≤ b.length → ts.length ≤ c.length →
      operations level operand b left ts = operations level operand c left ts
  | [], [], _, _, _, _ => rfl
  | [], _ :: c, ts, left, hb, _ => by
    obtain rfl : ts = [] := List.eq_nil_of_length_eq_zero (Nat.le_zero.1 hb)
    rfl
  | _ :: b, [], ts, left, _, hc => by
    obtain rfl : ts = [] := List.eq_nil_of_length_eq_zero (Nat.le_zero.1 hc)
    rfl
  | _ :: b, _ :: c, ts, left, hb, hc => by
    cases ts with
    | nil => rfl
    | cons t ts =>
      simp only [List.length_cons, Nat.add_le_add_iff_right] at hb hc
      unfold operations
      dsimp only
      split
      · next build _ =>
        refine agree_bind (n := ts.length + 1) (.refl _ _) h (fun right us hus => ?_) ts
          (Nat.lt_succ_self _)
        exact operations_eq h b c us (build left right) (by omega) (by omega)
      · rfl

theorem shrinks_chain {level : Level} {operand : Parser Expr} (h : Shrinks operand) :
    Shrinks (chain level operand) :=
  shrinks_bind h fun left ts => shrinks_operations level h ts left ts

theorem agree_chain {n : Nat} {level : Level} {p q : Parser Expr} (hpq : Agree n p q)
    (hp : Shrinks p) : Agree n (chain level p) (chain level q) :=
  agree_bind hpq hp fun left ts => agree_operations level hpq hp ts left ts

theorem shrinks_disjunction {p : Parser Expr} (hp : Shrinks p) : Shrinks (disjunction p) :=
  shrinks_chain (shrinks_chain (shrinks_chain (shrinks_chain (shrinks_chain (shrinks_chain
    (shrinks_unary (shrinks_primary hp)))))))

theorem agree_disjunction {n : Nat} {p q : Parser Expr} (hpq : Agree n p q) (hp : Shrinks p) :
    Agree (n + 1) (disjunction p) (disjunction q) := by
  have h0 := shrinks_unary (shrinks_primary hp)
  have a0 := agree_unary (agree_primary hpq hp)
  have h1 : Shrinks (factor p) := shrinks_chain h0
  have a1 : Agree (n + 1) (factor p) (factor q) := agree_chain a0 h0
  have h2 : Shrinks (term p) := shrinks_chain h1
  have a2 : Agree (n + 1) (term p) (term q) := agree_chain a1 h1
  have h3 : Shrinks (comparison p) := shrinks_chain h2
  have a3 : Agree (n + 1) (comparison p) (comparison q) := agree_chain a2 h2
  have h4 : Shrinks (equality p) := shrinks_chain h3
  have a4 : Agree (n + 1) (equality p) (equality q) := agree_chain a3 h3
  have h5 : Shrinks (conjunction p) := shrinks_chain h4
  have a5 : Agree (n + 1) (conjunction p) (conjunction q) := agree_chain a4 h4
  exact agree_chain a5 h5

theorem shrinks_assignment {p : Parser Expr} (hp : Shrinks p) : Shrinks (assignment p) := by
  refine shrinks_bind (shrinks_disjunction hp) fun left =>
    shrinks_bind (shrinks_accept .equal) fun equals => ?_
  cases equals with
  | none => exact shrinks_pure left
  | some equals =>
    refine shrinks_bind hp fun value => ?_
    split
    · exact shrinks_pure _
    · exact shrinks_bind (shrinks_note _ _) fun _ => shrinks_pure left

theorem agree_assignment {n : Nat} {p q : Parser Expr} (hpq : Agree n p q) (hp : Shrinks p) :
    Agree (n + 1) (assignment p) (assignment q) :=
  agree_bind (agree_disjunction hpq hp) (shrinks_disjunction hp) fun _ =>
    agree_accept (.refl _ _) fun _ => agree_bind hpq hp fun _ => .refl n _

theorem guarded_assignment : Guarded assignment where
  shrinks _ := shrinks_assignment
  congr _ _ ts hp _ hpq := agree_assignment hpq hp ts (Nat.lt_succ_self _)

theorem expression_eq : expression = assignment expression := guarded_assignment.nested_eq

theorem shrinks_expression : Shrinks expression := guarded_assignment.shrinks_nested

/-! ## Statements -/

theorem shrinks_synchronize (ts : List Token) : (synchronize ts).length ≤ ts.length := by
  induction ts with
  | nil => exact Nat.le_refl _
  | cons t ts ih =>
    unfold synchronize
    split
    · exact Nat.le_succ _
    · exact Nat.le_succ_of_le ih

theorem shrinks_recover {p : Parser α} (hp : Shrinks p) : Shrinks (recover p) := by
  intro ts
  have hrest := hp ts
  unfold recover
  rcases hpts : p ts with ⟨_ | a, mid, noted⟩ <;> rw [hpts] at hrest
  · exact Nat.le_trans (shrinks_synchronize mid) hrest
  · exact hrest

theorem agree_recover {n : Nat} {p q : Parser α} (hpq : Agree n p q) :
    Agree n (recover p) (recover q) := by
  intro ts hts
  unfold recover
  rw [hpq ts hts]

theorem shrinks_declarationTail : Shrinks declarationTail := by
  refine shrinks_bind (shrinks_expect _ _) fun name =>
    shrinks_bind (shrinks_accept _) fun equals => ?_
  have hend (init : Option Expr) : Shrinks (do
      let _ ← expect .semicolon .semicolonAfterDeclaration
      pure (.declare name init) : Parser Stmt) :=
    shrinks_bind (shrinks_expect _ _) fun _ => shrinks_pure _
  cases equals with
  | none => exact shrinks_bind (shrinks_pure _) hend
  | some _ => exact shrinks_bind (shrinks_map shrinks_expression) hend

theorem shrinks_expressionStatement : Shrinks expressionStatement :=
  shrinks_bind shrinks_expression fun _ =>
    shrinks_bind (shrinks_expect _ _) fun _ => shrinks_pure _

theorem shrinks_printTail (keyword : Token) : Shrinks (printTail keyword) :=
  shrinks_bind shrinks_expression fun _ =>
    shrinks_bind (shrinks_expect _ _) fun _ => shrinks_pure _

theorem shrinks_whileTail {p : Parser Stmt} (hp : Shrinks p) : Shrinks (whileTail p) :=
  shrinks_bind (shrinks_expect _ _) fun _ => shrinks_bind shrinks_expression fun _ =>
    shrinks_bind (shrinks_expect _ _) fun _ => shrinks_map hp

theorem agree_whileTail {n : Nat} {p q : Parser Stmt} (hpq : Agree n p q) (hp : Shrinks p) :
    Agree n (whileTail p) (whileTail q) :=
  agree_bind (.refl n _) (shrinks_expect _ _) fun _ =>
    agree_bind (.refl n _) shrinks_expression fun _ =>
      agree_bind (.refl n _) (shrinks_expect _ _) fun _ => agree_map hpq hp

theorem shrinks_ifTail {p : Parser Stmt} (hp : Shrinks p) : Shrinks (ifTail p) := by
  refine shrinks_bind (shrinks_expect _ _) fun _ => shrinks_bind shrinks_expression fun _ =>
    shrinks_bind (shrinks_expect _ _) fun _ => shrinks_bind hp fun _ =>
      shrinks_bind (shrinks_accept _) fun other => ?_
  cases other with
  | none => exact shrinks_pure _
  | some _ => exact shrinks_map hp

theorem agree_ifTail {n : Nat} {p q : Parser Stmt} (hpq : Agree n p q) (hp : Shrinks p) :
    Agree n (ifTail p) (ifTail q) := by
  refine agree_bind (.refl n _) (shrinks_expect _ _) fun _ =>
    agree_bind (.refl n _) shrinks_expression fun _ =>
      agree_bind (.refl n _) (shrinks_expect _ _) fun _ => agree_bind hpq hp fun _ =>
        agree_bind (.refl n _) (shrinks_accept _) fun other => ?_
  cases other with
  | none => exact .refl n _
  | some _ => exact agree_map hpq hp

theorem shrinks_declaration {p : Parser Stmt} (hp : Shrinks p) : Shrinks (declaration p) := by
  intro ts
  cases ts with
  | nil => exact hp []
  | cons t ts =>
    unfold declaration
    dsimp only
    split
    · exact Nat.le_succ_of_le (shrinks_declarationTail ts)
    · exact hp (t :: ts)

theorem agree_declaration {n : Nat} {p q : Parser Stmt} (hpq : Agree n p q) :
    Agree n (declaration p) (declaration q) := by
  intro ts hts
  cases ts with
  | nil => exact hpq [] hts
  | cons t ts =>
    unfold declaration
    dsimp only
    rw [hpq (t :: ts) hts]

theorem shrinks_declarations (stop : Option Kind) {p : Parser Stmt} (hp : Shrinks p) :
    ∀ rounds, Shrinks (declarations stop p rounds)
  | [] => shrinks_pure []
  | _ :: rounds => by
    intro ts
    cases ts with
    | nil => exact Nat.le_refl _
    | cons t ts =>
      unfold declarations
      dsimp only
      split
      · exact Nat.le_refl _
      · have h := shrinks_bind (shrinks_recover (shrinks_declaration hp)) fun first =>
          shrinks_bind (shrinks_declarations stop hp rounds) fun others =>
            shrinks_pure (first.toList ++ others)
        exact h (t :: ts)

theorem agree_declarations {n : Nat} (stop : Option Kind) {p q : Parser Stmt}
    (hpq : Agree n p q) (hp : Shrinks p) :
    ∀ rounds, Agree n (declarations stop p rounds) (declarations stop q rounds)
  | [] => .refl n _
  | _ :: rounds => by
    intro ts hts
    cases ts with
    | nil => rfl
    | cons t ts =>
      unfold declarations
      dsimp only
      split
      · rfl
      · have h := agree_bind (agree_recover (agree_declaration hpq))
          (shrinks_recover (shrinks_declaration hp)) fun first =>
            agree_bind (agree_declarations stop hpq hp rounds)
              (shrinks_declarations stop hp rounds) fun others =>
                .refl n (pure (first.toList ++ others))
        exact h (t :: ts) hts

theorem shrinks_blockTail {p : Parser Stmt} (hp : Shrinks p) : Shrinks (blockTail p) :=
  shrinks_bind (fun ts => shrinks_declarations _ hp ts ts) fun _ =>
    shrinks_bind (shrinks_expect _ _) fun _ => shrinks_pure _

theorem agree_blockTail {n : Nat} {p q : Parser Stmt} (hpq : Agree n p q) (hp : Shrinks p) :
    Agree n (blockTail p) (blockTail q) :=
  agree_bind (fun ts => agree_declarations _ hpq hp ts ts)
    (fun ts => shrinks_declarations _ hp ts ts) fun _ => .refl n _

theorem shrinks_statementAround {p : Parser Stmt} (hp : Shrinks p) :
    Shrinks (statementAround p) := by
  intro ts
  cases ts with
  | nil => exact shrinks_expressionStatement []
  | cons t ts =>
    unfold statementAround
    dsimp only
    split
    · exact Nat.le_succ_of_le (shrinks_ifTail hp ts)
    · exact Nat.le_succ_of_le (shrinks_printTail t ts)
    · exact Nat.le_succ_of_le (shrinks_whileTail hp ts)
    · exact Nat.le_succ_of_le (shrinks_blockTail hp ts)
    · exact shrinks_expressionStatement (t :: ts)

theorem agree_statementAround {n : Nat} {p q : Parser Stmt} (hpq : Agree n p q)
    (hp : Shrinks p) : Agree (n + 1) (statementAround p) (statementAround q) := by
  intro ts hts
  cases ts with
  | nil => rfl
  | cons t ts =>
    have hts : ts.length < n := Nat.lt_of_succ_lt_succ hts
    unfold statementAround
    dsimp only
    split
    · exact agree_ifTail hpq hp ts hts
    · rfl
    · exact agree_whileTail hpq hp ts hts
    · exact agree_blockTail hpq hp ts hts
    · rfl

theorem guarded_statementAround : Guarded statementAround where
  shrinks _ := shrinks_statementAround
  congr _ _ ts hp _ hpq := agree_statementAround hpq hp ts (Nat.lt_succ_self _)

theorem statement_eq : statement = statementAround statement := guarded_statementAround.nested_eq

end Treewalk.Parser
