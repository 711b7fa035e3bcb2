import Treewalk.Proofs.Syntax.SourceOrder
import Treewalk.Proofs.Syntax.Whole

/-!
# The parser ends and stays within the tokens

The recursions and loops of the parser take a token each time round. Unrolled more often than there
are tokens, they do the same whatever is put in at the bottom, so they end by themselves and not by
a bound. Every routine goes forward from where it stands and not past the first end token, and a
declaration that has a token before it goes at least one further.
-/

namespace Treewalk

open Token (Kind)

namespace Parser

variable {α : Type}

/-! ## Unrolling -/

/-- A parser that stands inside itself does the same when it is unrolled more often than there are
tokens, whatever is inside at the end. -/
theorem agree_iterate {around : Parser α → Parser α} {p : Parser α} (hfix : p = around p)
    (hstep : ∀ n q, Agree n p q → Agree (n + 1) (around p) (around q)) (cut : Parser α) (n : Nat) :
    Agree n p (around^[n] cut) := by
  induction n with
  | zero => exact fun ts hts => absurd hts (Nat.not_lt_zero _)
  | succ n ih =>
    rw [Function.iterate_succ_apply', hfix]
    exact hstep n _ ih

theorem expression_unrolled (cut : Parser Expr) (n : Nat) :
    Agree n expression (assignment^[n] cut) :=
  agree_iterate expression_eq (fun _ _ h => agree_assignment h shrinks_expression) cut n

theorem statement_unrolled (cut : Parser Stmt) (n : Nat) :
    Agree n statement (statementAround^[n] cut) :=
  agree_iterate statement_eq (fun _ _ h => agree_statementAround h shrinks_statement) cut n

/-- One round of the loop over operators, before the rounds `again`. -/
def operationRound (level : Level) (operand : Parser Expr) (again : Expr → Parser Expr)
    (left : Expr) : Parser Expr
  | [] => ⟨.ok left, [], []⟩
  | t :: more =>
    match level t with
    | some build => (operand >>= fun right => again (build left right)) more
    | none => ⟨.ok left, t :: more, []⟩

theorem loop_unrolled {level : Level} {operand : Parser Expr} (hs : Shrinks operand)
    (cut : Expr → Parser Expr) (n : Nat) (left : Expr) :
    Agree n (loop level operand left) ((operationRound level operand)^[n] cut left) := by
  induction n generalizing left with
  | zero => exact fun ts hts => absurd hts (Nat.not_lt_zero _)
  | succ n ih =>
    intro ts hts
    rw [Function.iterate_succ_apply']
    cases ts with
    | nil => rfl
    | cons t ts =>
      cases hlevel : level t with
      | none =>
        have hdone : loop level operand left (t :: ts) = ⟨.ok left, t :: ts, []⟩ :=
          yields_loop_done fun u hu => by cases hu; exact hlevel
        simp only [hdone, operationRound, hlevel]
      | some build =>
        rw [loop_cons hs hlevel]
        simp only [operationRound, hlevel]
        exact agree_bind (.refl n _) hs (fun right => ih (build left right)) ts
          (Nat.lt_of_succ_lt_succ hts)

/-- One round of the loop over declarations, before the rounds `again`. -/
def declarationRound (stop : Option Kind) (again : Parser (List Stmt)) : Parser (List Stmt)
  | [] => ⟨.ok [], [], []⟩
  | t :: more =>
    if stop = some t.kind then ⟨.ok [], t :: more, []⟩
    else
      (recover (declaration statement) >>= fun first =>
        (fun others => first.toList ++ others) <$> again) (t :: more)

theorem body_eq_round (stop : Option Kind) : bounded (declarations stop statement) =
    declarationRound stop (bounded (declarations stop statement)) := by
  funext ts
  cases ts with
  | nil => rfl
  | cons t ts =>
    rw [declarationRound]
    split
    · next hstop =>
      show declarations stop statement (t :: ts) (t :: ts) = _
      rw [declarations]
      exact if_pos hstop
    · next hstop => exact body_cons hstop ts

theorem agree_declarationRound {n : Nat} {p q : Parser (List Stmt)} (h : Agree n p q)
    (stop : Option Kind) : Agree (n + 1) (declarationRound stop p) (declarationRound stop q) := by
  intro ts hts
  cases ts with
  | nil => rfl
  | cons t ts =>
    rw [declarationRound, declarationRound]
    split
    · rfl
    · refine bind_congr fun first => ?_
      have hmid := length_recover_cons t ts
      rw [map_apply, map_apply, h _ (Nat.lt_of_le_of_lt hmid (Nat.lt_of_succ_lt_succ hts))]

theorem body_unrolled (stop : Option Kind) (cut : Parser (List Stmt)) (n : Nat) :
    Agree n (bounded (declarations stop statement)) ((declarationRound stop)^[n] cut) :=
  agree_iterate (body_eq_round stop) (fun _ _ h => agree_declarationRound h stop) cut n

theorem head_of_yields_declarations {stop : Option Kind} : ∀ {rounds ts rest : List Token}
    {body : List Stmt} {noted : List Complaint}, ts.length ≤ rounds.length →
    Yields (declarations stop statement rounds) ts body rest noted →
    ∀ t ∈ rest.head?, stop = some t.kind
  | [], ts, rest, body, noted, hts, h => by
    obtain rfl : ts = [] := List.eq_nil_of_length_eq_zero (Nat.le_zero.1 hts)
    obtain rfl : [] = rest := (Outcome.mk.inj h).2.1
    simp
  | r :: rounds, ts, rest, body, noted, hts, h => by
    rcases yields_declarations.1 h with ⟨hstop, -, rfl, -⟩ |
      ⟨t, us, first, mid, before, others, after, rfl, -, hfirst, hothers, -, -⟩
    · exact hstop
    · have hmid := length_recover_cons t us
      rw [show recover (declaration statement) (t :: us) = _ from hfirst] at hmid
      exact head_of_yields_declarations
        (Nat.le_trans hmid (Nat.le_of_succ_le_succ hts)) hothers

theorem head_body (stop : Option Kind) (ts : List Token) :
    ∀ t ∈ (bounded (declarations stop statement) ts).rest.head?, stop = some t.kind := by
  obtain ⟨body, rest, noted, hy⟩ := declarations_ok stop statement ts ts
  rw [show bounded (declarations stop statement) ts = _ from hy]
  exact head_of_yields_declarations (Nat.le_refl _) hy

/-- On these tokens the recursions and loops of the parser go less than `n` rounds: unrolled so
often, they do not depend on what is put in at the bottom. The loops over declarations stop only
before a token of their kind or at the end. -/
structure EndsWithin (n : Nat) (ts : List Token) : Prop where
  expression : ∀ cut, assignment^[n] cut ts = expression ts
  statement : ∀ cut, statementAround^[n] cut ts = statement ts
  operations : ∀ l cut left,
    (operationRound (operatorsOf l) (operandOf Parser.expression l))^[n] cut left ts =
      loop (operatorsOf l) (operandOf Parser.expression l) left ts
  declarations : ∀ stop cut, (declarationRound stop)^[n] cut ts =
    bounded (declarations stop Parser.statement) ts
  stops : ∀ stop, ∀ t ∈ (bounded (Parser.declarations stop Parser.statement) ts).rest.head?,
    stop = some t.kind

theorem endsWithin {n : Nat} {ts : List Token} (h : ts.length < n) : EndsWithin n ts where
  expression cut := (expression_unrolled cut n ts h).symm
  statement cut := (statement_unrolled cut n ts h).symm
  operations l cut left :=
    (loop_unrolled (shrinks_operandOf shrinks_expression l) cut n left ts h).symm
  declarations stop cut := (body_unrolled stop cut n ts h).symm
  stops stop := head_body stop ts

/-! ## Routines -/

/-- The routines of the parser, each with the parsers that stand inside it. -/
inductive Routine : {α : Type} → Parser α → Prop
  | accept (kind) : Routine (accept kind)
  | expect (kind what) : Routine (expect kind what)
  | phrase (symbol) : Routine (phrase expression symbol)
  | expression : Routine expression
  | declarationTail : Routine declarationTail
  | ifTail : Routine (ifTail statement)
  | whileTail : Routine (whileTail statement)
  | printTail (keyword) : Routine (printTail keyword)
  | expressionStatement : Routine expressionStatement
  | blockTail : Routine (blockTail statement)
  | statement : Routine statement
  | declaration : Routine (declaration statement)
  | recovered : Routine (recover (declaration statement))
  | declarations (stop) : Routine (bounded (declarations stop statement))
  | finish (what) : Routine (finish what)

theorem forward_operandOf {p : Parser Expr} (hp : Forward p) (l : Grammar.Level) :
    Forward (operandOf p l) := by
  have hunary := forward_unary (forward_primary hp)
  have hfactor : Forward (factor p) := forward_chain hunary
  have hterm : Forward (term p) := forward_chain hfactor
  have hcomparison : Forward (comparison p) := forward_chain hterm
  have hequality : Forward (equality p) := forward_chain hcomparison
  have hconjunction : Forward (conjunction p) := forward_chain hequality
  cases l <;> assumption

theorem forward_phrase {p : Parser Expr} (hp : Forward p) (symbol : Grammar.Symbol) :
    Forward (phrase p symbol) := by
  cases symbol with
  | assignment => exact forward_assignment hp
  | level l => exact forward_chain (forward_operandOf hp l)
  | more l left => exact fun ts => forward_operations _ (forward_operandOf hp l) ts left ts
  | unary => exact forward_unary (forward_primary hp)
  | primary => exact forward_primary hp

theorem forward_finish (what : Expectation) : Forward (finish what) := by
  intro ts
  cases ts with
  | nil => exact .here []
  | cons t ts => exact .here (t :: ts)

theorem Routine.forward {p : Parser α} (h : Routine p) : Forward p := by
  cases h with
  | accept kind => exact forward_accept kind
  | expect kind what => exact forward_expect kind what
  | phrase symbol => exact forward_phrase forward_expression symbol
  | expression => exact forward_expression
  | declarationTail => exact forward_declarationTail
  | ifTail => exact forward_ifTail forward_statement
  | whileTail => exact forward_whileTail forward_statement
  | printTail keyword => exact forward_semicolon _ _
  | expressionStatement => exact forward_semicolon _ _
  | blockTail => exact forward_blockTail forward_statement
  | statement => exact forward_statement
  | declaration => exact forward_declaration forward_statement
  | recovered => exact forward_recover (forward_declaration forward_statement)
  | declarations stop => exact fun ts => forward_declarations stop forward_statement ts ts
  | finish what => exact forward_finish what

theorem Routine.exists_position {p : Parser α} (h : Routine p) (ts : List Token) (i : Nat)
    (hi : i ≤ ts.length) : ∃ j, i ≤ j ∧ j ≤ ts.length ∧ (p (ts.drop i)).rest = ts.drop j := by
  obtain ⟨used, hused⟩ := (h.forward (ts.drop i)).suffix
  refine ⟨i + used.length, Nat.le_add_right _ _, ?_, ?_⟩
  · have hlength := congrArg List.length hused
    rw [List.length_append, List.length_drop] at hlength
    omega
  · have hrest := congrArg (List.drop used.length) hused
    rwa [List.drop_left, List.drop_drop] at hrest

theorem exists_position_recover (ts : List Token) (i : Nat) (hi : i < ts.length) :
    ∃ j, i < j ∧ j ≤ ts.length ∧
      (recover (declaration statement) (ts.drop i)).rest = ts.drop j := by
  obtain ⟨j, hij, hj, hrest⟩ := Routine.recovered.exists_position ts i (Nat.le_of_lt hi)
  refine ⟨j, Nat.lt_of_le_of_ne hij ?_, hj, hrest⟩
  rintro rfl
  have hlength := length_recover_cons ts[i] (ts.drop (i + 1))
  rw [← List.drop_eq_getElem_cons hi, hrest, List.length_drop, List.length_drop] at hlength
  omega

end Parser

/-! ## Positions in the token list -/

/-- The tokens with an end token at the end, as they are counted. -/
def closed (tokens : List Token) : List Token :=
  match tokens.getLast? with
  | some last => if last.isEnd then tokens else tokens ++ [.endAt last.line last.span.stop]
  | none => [.endAt 1 0]

theorem not_isEnd_of_mem_beforeEnd {tokens : List Token} {t : Token} (h : t ∈ beforeEnd tokens) :
    ¬ t.isEnd := by
  simpa using List.mem_takeWhile_imp h

theorem exists_closed_eq_append {tokens : List Token} (h : tokens ≠ []) :
    ∃ more, closed tokens = tokens ++ more := by
  unfold closed
  rw [List.getLast?_eq_some_getLast h]
  dsimp only
  split
  · exact ⟨[], (List.append_nil _).symm⟩
  · exact ⟨_, rfl⟩

theorem exists_closed_eq (tokens : List Token) :
    ∃ more, closed tokens = beforeEnd tokens ++ endToken tokens :: more := by
  cases hfind : tokens.find? Token.isEnd with
  | some stop =>
    obtain ⟨hstop, before, after, rfl, hbefore⟩ := List.find?_eq_some_iff_append.1 hfind
    obtain ⟨more, hmore⟩ := @exists_closed_eq_append (before ++ stop :: after) (by simp)
    have hnone : beforeEnd (stop :: after) = [] := by simp [beforeEnd, hstop]
    have hend : endToken (before ++ stop :: after) = stop := by rw [endToken, hfind]; rfl
    refine ⟨after ++ more, ?_⟩
    rw [hmore, hend, beforeEnd_append (by simpa using hbefore), hnone]
    simp
  | none =>
    have hall := List.find?_eq_none.1 hfind
    refine ⟨[], ?_⟩
    rw [beforeEnd_eq_self hall, endToken, hfind, closed]
    cases hlast : tokens.getLast? with
    | none =>
      rw [List.getLast?_eq_none_iff.1 hlast]
      rfl
    | some last => exact if_neg (hall last (List.mem_of_getLast? hlast))

theorem take_closed (tokens : List Token) :
    (closed tokens).take ((beforeEnd tokens).length + 1) =
      beforeEnd tokens ++ [endToken tokens] := by
  obtain ⟨more, hmore⟩ := exists_closed_eq tokens
  rw [hmore, List.take_append, List.take_of_length_le (Nat.le_succ _), Nat.add_sub_cancel_left]
  rfl

theorem getElem?_closed (tokens : List Token) {i : Nat} (hi : i ≤ (beforeEnd tokens).length) :
    (closed tokens)[i]? =
      some (((beforeEnd tokens).drop i).head?.getD (endToken tokens)) := by
  obtain ⟨more, hmore⟩ := exists_closed_eq tokens
  rw [hmore, List.head?_drop]
  rcases Nat.lt_or_eq_of_le hi with hlt | rfl
  · rw [List.getElem?_append_left hlt, List.getElem?_eq_getElem hlt]
    rfl
  · simp

theorem beforeEnd_take_closed (tokens : List Token) :
    beforeEnd (beforeEnd tokens ++ [endToken tokens]) = beforeEnd tokens := by
  have hstop : beforeEnd [endToken tokens] = [] := by
    simp [beforeEnd, isEnd_endToken tokens]
  rw [beforeEnd_append fun _ => not_isEnd_of_mem_beforeEnd, hstop, List.append_nil]

theorem endToken_take_closed (tokens : List Token) :
    endToken (beforeEnd tokens ++ [endToken tokens]) = endToken tokens := by
  rw [endToken_append (fun _ => not_isEnd_of_mem_beforeEnd) (by simp)]
  have hfind : [endToken tokens].find? Token.isEnd = some (endToken tokens) :=
    List.find?_cons_of_pos (isEnd_endToken tokens)
  rw [endToken, hfind]
  rfl

/-- Unrolling the parser once more than there are tokens left is enough, and every routine goes on
to a position that is not past the first end token. -/
theorem parser_ends_within_tokens (tokens : List Token) :
    let ts := beforeEnd tokens
    let stop := ts.length
    (∀ i ≤ stop, Parser.EndsWithin (stop - i + 1) (ts.drop i)) ∧
    (∀ i ≤ stop, ∃ t, (closed tokens)[i]? = some t ∧ (t.isEnd ↔ i = stop) ∧
      t = (ts.drop i).head?.getD (endToken tokens)) ∧
    (∀ (α : Type) (p : Parser α), Parser.Routine p → ∀ i ≤ stop,
      ∃ j, i ≤ j ∧ j ≤ stop ∧ (p (ts.drop i)).rest = ts.drop j) ∧
    (∀ i < stop, ∃ j, i < j ∧ j ≤ stop ∧
      (Parser.recover (Parser.declaration Parser.statement) (ts.drop i)).rest = ts.drop j) ∧
    parse tokens = parse ((closed tokens).take (stop + 1)) ∧
    parseExpression tokens = parseExpression ((closed tokens).take (stop + 1)) := by
  intro ts stop
  refine ⟨fun i hi => ?_, fun i hi => ⟨_, getElem?_closed tokens hi, ?_, rfl⟩,
    fun α p h => h.exists_position ts, Parser.exists_position_recover ts, ?_, ?_⟩
  · exact Parser.endsWithin (by rw [List.length_drop]; exact Nat.lt_succ_self _)
  · rcases Nat.lt_or_eq_of_le hi with hlt | rfl
    · have hmem : ts[i] ∈ beforeEnd tokens := List.getElem_mem hlt
      rw [List.head?_drop, List.getElem?_eq_getElem hlt]
      exact iff_of_false (not_isEnd_of_mem_beforeEnd hmem) (Nat.ne_of_lt hlt)
    · rw [List.drop_length]
      exact iff_of_true (isEnd_endToken tokens) rfl
  · rw [take_closed, parse, parse, beforeEnd_take_closed, endToken_take_closed]
  · rw [take_closed, parseExpression, parseExpression, beforeEnd_take_closed, endToken_take_closed]

theorem parser_ends_within_tokens_end_inside :
    let paren : Token := ⟨.rightParen, ")", none, 1, ⟨0, 1⟩⟩
    let stop : Token := .endAt 1 1
    let name : Token := ⟨.identifier, "a", none, 1, ⟨2, 3⟩⟩
    (∃ j, 0 < j ∧ j ≤ 1 ∧
      (Parser.recover (Parser.declaration Parser.statement) [paren]).rest = [paren].drop j) ∧
      parse [paren, stop, name] = parse [paren, stop] := by
  intro paren stop name
  obtain ⟨-, -, -, hdeclaration, hparse, -⟩ := parser_ends_within_tokens [paren, stop, name]
  exact ⟨hdeclaration 0 (by decide), hparse⟩

end Treewalk
