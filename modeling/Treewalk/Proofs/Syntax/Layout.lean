import Treewalk.Proofs.Syntax.Relocation
import Treewalk.Syntax.Parser

/-!
# Parsing moved tokens

The parser decides nothing by the place of a token. On tokens that were moved it builds the same
trees with the moved tokens in them, skips the same tokens and has the same complaints.
-/

namespace Treewalk

def Complaint.mapToken (f : Token → Token) (c : Complaint) : Complaint :=
  { c with token := c.token.map f }

def Outcome.mapTokens {α β : Type} (f : Token → Token) (g : α → β) (o : Outcome α) : Outcome β :=
  ⟨o.result.map g, o.rest.map f, o.noted.map (·.mapToken f)⟩

theorem Outcome.complaints_mapTokens {α β : Type} (f : Token → Token) (g : α → β) (o : Outcome α) :
    (o.mapTokens f g).complaints = o.complaints.map (·.mapToken f) := by
  obtain ⟨_ | a, rest, noted⟩ := o
  · simp [mapTokens, complaints, Except.map, Complaint.mapToken]
  · rfl

theorem Expr.ofToken?_moved {f : Token → Token} (hf : Token.Moves f) (t : Token) :
    ofToken? (f t) = (ofToken? t).map (mapTokens f) := by
  unfold ofToken?
  rw [hf.kind, hf.literal]
  split
  case h_4 | h_5 => split <;> rfl
  all_goals rfl

namespace Parser

open Token (Kind)

variable {α β γ δ : Type} {f : Token → Token}

/-- What `q` does with moved tokens is what `p` does with the tokens, moved. -/
def Follows (f : Token → Token) (g : α → β) (p : Parser α) (q : Parser β) : Prop :=
  ∀ ts, q (ts.map f) = (p ts).mapTokens f g

/-! ## Combinators -/

theorem follows_pure (g : α → β) (a : α) : Follows f g (pure a) (pure (g a)) := fun _ => rfl

theorem follows_fail (g : α → β) (what : Expectation) : Follows f g (fail what) (fail what) :=
  fun _ => rfl

theorem follows_note (cause : SyntaxError.Cause) (t : Token) :
    Follows f id (note cause t) (note cause (f t)) := fun _ => rfl

theorem follows_bind {g : α → β} {h : γ → δ} {p : Parser α} {q : Parser β} {k : α → Parser γ}
    {k' : β → Parser δ} (hp : Follows f g p q) (hk : ∀ a, Follows f h (k a) (k' (g a))) :
    Follows f h (p >>= k) (q >>= k') := by
  intro ts
  show Parser.bind q k' (ts.map f) = (Parser.bind p k ts).mapTokens f h
  unfold Parser.bind
  rw [hp ts]
  rcases p ts with ⟨_ | a, mid, noted⟩
  · rfl
  · simp [Outcome.mapTokens, Except.map, hk a mid]

theorem follows_map {g : α → β} {h : γ → δ} {p : Parser α} {q : Parser β} {k : α → γ} {k' : β → δ}
    (hp : Follows f g p q) (hk : ∀ a, h (k a) = k' (g a)) : Follows f h (k <$> p) (k' <$> q) := by
  refine follows_bind hp fun a => ?_
  show Follows f h (pure (k a)) (pure (k' (g a)))
  rw [← hk]
  exact follows_pure h (k a)

theorem follows_bounded {g : α → β} {p : List Token → Parser α} {q : List Token → Parser β}
    (h : ∀ rounds, Follows f g (p rounds) (q (rounds.map f))) :
    Follows f g (bounded p) (bounded q) := fun ts => h ts ts

theorem follows_nested {g : α → α} {around : Parser α → Parser α}
    (h : ∀ p q, Follows f g p q → Follows f g (around p) (around q)) :
    Follows f g (nested around) (nested around) := by
  refine follows_bounded fun rounds => ?_
  induction rounds with
  | nil => exact h _ _ (follows_fail g .expression)
  | cons _ rounds ih => exact h _ _ ih

section

variable (hf : Token.Moves f)
include hf

theorem follows_accept (kind : Kind) : Follows f (Option.map f) (accept kind) (accept kind) := by
  intro ts
  cases ts with
  | nil => rfl
  | cons t ts =>
    rw [List.map_cons]
    unfold accept
    dsimp only
    rw [hf.kind]
    split <;> rfl

theorem follows_expect (kind : Kind) (what : Expectation) :
    Follows f f (expect kind what) (expect kind what) := by
  refine follows_bind (follows_accept hf kind) fun t => ?_
  cases t with
  | none => exact follows_fail f what
  | some t => exact follows_pure f t

theorem synchronize_moved (ts : List Token) : synchronize (ts.map f) = (synchronize ts).map f := by
  induction ts with
  | nil => rfl
  | cons t ts ih =>
    have hnext : (ts.map f).head?.any (·.kind.startsStatement) =
        ts.head?.any (·.kind.startsStatement) := by
      cases ts <;> simp [hf.kind]
    rw [List.map_cons]
    unfold synchronize
    rw [hf.kind, hnext, ih]
    split <;> rfl

theorem follows_recover {g : α → β} {p : Parser α} {q : Parser β} (hp : Follows f g p q) :
    Follows f (Option.map g) (recover p) (recover q) := by
  intro ts
  have hcomplaints := (p ts).complaints_mapTokens f g
  unfold recover
  rw [hp ts]
  dsimp only
  rw [hcomplaints]
  rcases p ts with ⟨_ | a, mid, noted⟩
  · simp [Outcome.mapTokens, Except.map, synchronize_moved hf]
  · rfl

/-! ## Expressions -/

theorem follows_primary {p q : Parser Expr} (hp : Follows f (Expr.mapTokens f) p q) :
    Follows f (Expr.mapTokens f) (primary p) (primary q) := by
  intro ts
  cases ts with
  | nil => rfl
  | cons t ts =>
    rw [List.map_cons]
    unfold primary
    dsimp only
    rw [Expr.ofToken?_moved hf, hf.kind]
    cases Expr.ofToken? t with
    | some e => rfl
    | none =>
      dsimp only [Option.map_none]
      split
      · exact follows_bind hp (fun inner => follows_bind (follows_expect hf _ _) fun _ =>
          follows_pure _ (Expr.grouping inner)) ts
      · rfl

theorem follows_unary {p q : Parser Expr} (hp : Follows f (Expr.mapTokens f) p q) :
    Follows f (Expr.mapTokens f) (unary p) (unary q) := by
  intro ts
  induction ts with
  | nil => exact hp []
  | cons t ts ih =>
    rw [List.map_cons]
    unfold unary
    rw [hf.kind]
    split
    · rw [ih]
      rcases unary p ts with ⟨_ | e, rest, noted⟩ <;> rfl
    · exact hp (t :: ts)

omit hf in
/-- An operator belongs to the level wherever it stands, and builds the same. -/
def Level.Moves (f : Token → Token) (level : Level) : Prop :=
  ∀ t, Option.Rel (fun build build' => ∀ left right : Expr,
    build' (left.mapTokens f) (right.mapTokens f) = (build left right).mapTokens f)
    (level t) (level (f t))

theorem moves_binaryLevel (ops : List BinaryOp) : (binaryLevel ops).Moves f := by
  intro t
  unfold binaryLevel
  rw [hf.kind]
  cases ops.find? (·.kind = t.kind) with
  | none => exact .none
  | some op => exact .some fun left right => rfl

theorem moves_logicalLevel (op : LogicalOp) : (logicalLevel op).Moves f := by
  intro t
  unfold logicalLevel
  rw [hf.kind]
  split
  · exact .some fun left right => rfl
  · exact .none

omit hf in
theorem follows_operations {level : Level} (hlevel : level.Moves f) {p q : Parser Expr}
    (hp : Follows f (Expr.mapTokens f) p q) : ∀ rounds left,
      Follows f (Expr.mapTokens f) (operations level p rounds left)
        (operations level q (rounds.map f) (left.mapTokens f))
  | [], left => follows_pure _ left
  | _ :: rounds, left => by
    intro ts
    cases ts with
    | nil => rfl
    | cons t ts =>
      have ht := hlevel t
      simp only [List.map_cons]
      unfold operations
      dsimp only
      generalize level t = build, level (f t) = build' at ht
      cases ht with
      | none => rfl
      | some hbuild =>
        refine follows_bind hp (fun right => ?_) ts
        rw [hbuild]
        exact follows_operations hlevel hp rounds _

omit hf in
theorem follows_chain {level : Level} (hlevel : level.Moves f) {p q : Parser Expr}
    (hp : Follows f (Expr.mapTokens f) p q) :
    Follows f (Expr.mapTokens f) (chain level p) (chain level q) :=
  follows_bind hp fun left =>
    follows_bounded fun rounds => follows_operations hlevel hp rounds left

theorem follows_disjunction {p q : Parser Expr} (hp : Follows f (Expr.mapTokens f) p q) :
    Follows f (Expr.mapTokens f) (disjunction p) (disjunction q) := by
  have hunary := follows_unary hf (follows_primary hf hp)
  have hfactor := follows_chain (moves_binaryLevel hf [.divide, .multiply]) hunary
  have hterm := follows_chain (moves_binaryLevel hf [.subtract, .add]) hfactor
  have hcomparison := follows_chain
    (moves_binaryLevel hf [.greater, .greaterEqual, .less, .lessEqual]) hterm
  have hequality := follows_chain (moves_binaryLevel hf [.notEqual, .equal]) hcomparison
  have hconjunction := follows_chain (moves_logicalLevel hf .and) hequality
  exact follows_chain (moves_logicalLevel hf .or) hconjunction

theorem follows_assignment {p q : Parser Expr} (hp : Follows f (Expr.mapTokens f) p q) :
    Follows f (Expr.mapTokens f) (assignment p) (assignment q) := by
  refine follows_bind (follows_disjunction hf hp) fun left =>
    follows_bind (follows_accept hf .equal) fun equals => ?_
  cases equals with
  | none => exact follows_pure _ left
  | some equals =>
    refine follows_bind hp fun value => ?_
    cases left with
    | var name => exact follows_pure _ (Expr.assign name value)
    | literal _ | grouping _ | unary _ _ _ | binary _ _ _ _ | logical _ _ _ _ | assign _ _ =>
      exact follows_bind (follows_note _ equals) fun _ => follows_pure _ _

theorem follows_expression : Follows f (Expr.mapTokens f) expression expression :=
  follows_nested fun _ _ => follows_assignment hf

/-! ## Statements -/

theorem follows_declarationTail : Follows f (Stmt.mapTokens f) declarationTail declarationTail := by
  refine follows_bind (follows_expect hf _ _) fun name =>
    follows_bind (follows_accept hf .equal) fun equals => ?_
  have hend (init : Option Expr) : Follows f (Stmt.mapTokens f)
      (expect .semicolon .semicolonAfterDeclaration >>= fun _ => pure (.declare name init))
      (expect .semicolon .semicolonAfterDeclaration >>= fun _ =>
        pure (.declare (f name) (init.map (Expr.mapTokens f)))) :=
    follows_bind (follows_expect hf _ _) fun _ => follows_pure _ _
  cases equals with
  | none => exact follows_bind (follows_pure (Option.map (Expr.mapTokens f)) none) hend
  | some _ => exact follows_bind (follows_map (follows_expression hf) fun _ => rfl) hend

theorem follows_expressionStatement :
    Follows f (Stmt.mapTokens f) expressionStatement expressionStatement :=
  follows_bind (follows_expression hf) fun e =>
    follows_bind (follows_expect hf _ _) fun _ => follows_pure _ (Stmt.expression e)

theorem follows_printTail (keyword : Token) :
    Follows f (Stmt.mapTokens f) (printTail keyword) (printTail (f keyword)) :=
  follows_bind (follows_expression hf) fun e =>
    follows_bind (follows_expect hf _ _) fun _ => follows_pure _ (Stmt.print keyword e)

theorem follows_whileTail {p q : Parser Stmt} (hp : Follows f (Stmt.mapTokens f) p q) :
    Follows f (Stmt.mapTokens f) (whileTail p) (whileTail q) :=
  follows_bind (follows_expect hf _ _) fun _ => follows_bind (follows_expression hf) fun _ =>
    follows_bind (follows_expect hf _ _) fun _ => follows_map hp fun _ => rfl

theorem follows_ifTail {p q : Parser Stmt} (hp : Follows f (Stmt.mapTokens f) p q) :
    Follows f (Stmt.mapTokens f) (ifTail p) (ifTail q) := by
  refine follows_bind (follows_expect hf _ _) fun _ =>
    follows_bind (follows_expression hf) fun condition =>
      follows_bind (follows_expect hf _ _) fun _ => follows_bind hp fun yes =>
        follows_bind (follows_accept hf .elseKw) fun other => ?_
  cases other with
  | none => exact follows_pure _ (Stmt.ifThen condition yes)
  | some _ => exact follows_map hp fun _ => rfl

theorem follows_declaration {p q : Parser Stmt} (hp : Follows f (Stmt.mapTokens f) p q) :
    Follows f (Stmt.mapTokens f) (declaration p) (declaration q) := by
  intro ts
  cases ts with
  | nil => exact hp []
  | cons t ts =>
    rw [List.map_cons]
    unfold declaration
    dsimp only
    rw [hf.kind]
    split
    · exact follows_declarationTail hf ts
    · exact hp (t :: ts)

theorem follows_declarations (stop : Option Kind) {p q : Parser Stmt}
    (hp : Follows f (Stmt.mapTokens f) p q) : ∀ rounds,
      Follows f (List.map (Stmt.mapTokens f)) (declarations stop p rounds)
        (declarations stop q (rounds.map f))
  | [] => follows_pure _ []
  | _ :: rounds => by
    intro ts
    cases ts with
    | nil => rfl
    | cons t ts =>
      simp only [List.map_cons]
      unfold declarations
      dsimp only
      rw [hf.kind]
      split
      · rfl
      · refine follows_bind (follows_recover hf (follows_declaration hf hp)) (fun first =>
          follows_bind (follows_declarations stop hp rounds) fun others => ?_) (t :: ts)
        have hall : (first.map (Stmt.mapTokens f)).toList ++ others.map (Stmt.mapTokens f) =
            (first.toList ++ others).map (Stmt.mapTokens f) := by
          cases first <;> simp
        rw [hall]
        exact follows_pure _ (first.toList ++ others)

theorem follows_blockTail {p q : Parser Stmt} (hp : Follows f (Stmt.mapTokens f) p q) :
    Follows f (Stmt.mapTokens f) (blockTail p) (blockTail q) := by
  refine follows_bind (follows_bounded (follows_declarations hf _ hp)) fun body =>
    follows_bind (follows_expect hf _ _) fun _ => ?_
  rw [← Stmt.mapTokensAll_eq]
  exact follows_pure _ (Stmt.block body)

theorem follows_statementAround {p q : Parser Stmt} (hp : Follows f (Stmt.mapTokens f) p q) :
    Follows f (Stmt.mapTokens f) (statementAround p) (statementAround q) := by
  intro ts
  cases ts with
  | nil => exact follows_expressionStatement hf []
  | cons t ts =>
    rw [List.map_cons]
    unfold statementAround
    dsimp only
    rw [hf.kind]
    split
    · exact follows_ifTail hf hp ts
    · exact follows_printTail hf t ts
    · exact follows_whileTail hf hp ts
    · exact follows_blockTail hf hp ts
    · exact follows_expressionStatement hf (t :: ts)

theorem follows_statement : Follows f (Stmt.mapTokens f) statement statement :=
  follows_nested fun _ _ => follows_statementAround hf

theorem follows_program : Follows f (List.map (Stmt.mapTokens f)) program program :=
  follows_bounded (follows_declarations hf none (follows_statement hf))

end

end Parser

/-! ## Whole token lists -/

def SyntaxError.bare (e : SyntaxError) : SyntaxError := { e with line := 0, span := ⟨0, 0⟩ }

theorem isEnd_endToken (tokens : List Token) : (endToken tokens).isEnd := by
  unfold endToken
  cases h : tokens.find? Token.isEnd with
  | some t => exact List.find?_some h
  | none => split <;> rfl

section

variable {f : Token → Token} (hf : Token.Moves f)
include hf

theorem isEnd_moved (t : Token) : (f t).isEnd = t.isEnd := by
  unfold Token.isEnd
  rw [hf.kind]

theorem bare_toError_mapToken (tokens tokens' : List Token) (c : Complaint) :
    ((c.mapToken f).toError (endToken tokens')).bare = (c.toError (endToken tokens)).bare := by
  obtain ⟨cause, token⟩ := c
  cases token with
  | none =>
    simp [Complaint.mapToken, Complaint.toError, SyntaxError.atToken, SyntaxError.bare,
      isEnd_endToken]
  | some t =>
    simp [Complaint.mapToken, Complaint.toError, SyntaxError.atToken, SyntaxError.bare,
      isEnd_moved hf, hf.lexeme]

theorem program_moved (tokens : List Token) :
    Parser.program (beforeEnd (tokens.map f)) =
      (Parser.program (beforeEnd tokens)).mapTokens f (List.map (Stmt.mapTokens f)) := by
  have hbefore : beforeEnd (tokens.map f) = (beforeEnd tokens).map f := by
    unfold beforeEnd
    rw [List.takeWhile_map]
    congr 2
    funext t
    exact congrArg _ (isEnd_moved hf t)
  rw [hbefore]
  exact Parser.follows_program hf (beforeEnd tokens)

theorem statements_parse_moved (tokens : List Token) :
    (parse (tokens.map f)).statements = (parse tokens).statements.map (Stmt.mapTokens f) := by
  unfold parse
  rw [program_moved hf]
  rcases Parser.program (beforeEnd tokens) with ⟨_ | body, rest, noted⟩ <;> rfl

theorem errors_parse_moved (tokens : List Token) :
    (parse (tokens.map f)).errors.map SyntaxError.bare =
      (parse tokens).errors.map SyntaxError.bare := by
  unfold parse
  dsimp only
  rw [program_moved hf, Outcome.complaints_mapTokens]
  simp [bare_toError_mapToken hf tokens]

end

end Treewalk
