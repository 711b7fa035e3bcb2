import Mathlib.Data.List.Perm.Subperm
import Treewalk.Proofs.Lexeme.Accounts
import Treewalk.Proofs.Syntax.Earliest

/-!
# The trail of a parser

A parser goes forward. It takes a token, or it trips at one and skips it, and at the end it can only
trip at the end. A bad target is noted later, when the value after it has been read. `Trail` says
this once, every function of the parser follows it, and what the complaints of a program are like is
read off from it: no token is complained about twice.
-/

namespace Treewalk

open Token (Kind)

/-- `Trail ts cs rest`: the way from `ts` to `rest` on which the complaints `cs` are made, in order. -/
inductive Trail : List Token → List Complaint → List Token → Prop
  | here (ts) : Trail ts [] ts
  | pass {ts cs rest} (t) : Trail ts cs rest → Trail (t :: ts) cs rest
  | trip {ts cs rest} (what t) : Trail ts cs rest →
    Trail (t :: ts) (⟨.expected what, some t⟩ :: cs) rest
  | atEnd {cs rest} (what) : Trail [] cs rest → Trail [] (⟨.expected what, none⟩ :: cs) rest
  -- The `=` is passed, and what follows it may be complained about first.
  | target {ts cs ds rest} (equals) : Trail ts (cs ++ ds) rest →
    Trail (equals :: ts) (cs ++ Parser.badTarget equals :: ds) rest

namespace Trail

variable {ts mid rest : List Token} {cs ds : List Complaint}

theorem trans (h : Trail ts cs mid) (h' : Trail mid ds rest) : Trail ts (cs ++ ds) rest := by
  induction h with
  | here => exact h'
  | pass t _ ih => exact .pass t (ih h')
  | trip what t _ ih => exact .trip what t (ih h')
  | atEnd what _ ih => exact .atEnd what (ih h')
  | target equals _ ih =>
    rw [List.append_assoc, List.cons_append]
    refine .target equals ?_
    rw [← List.append_assoc]
    exact ih h'

theorem subperm (h : Trail ts cs rest) : (cs.filterMap (·.token)).Subperm ts := by
  induction h with
  | here => exact List.nil_subperm
  | pass t _ ih => exact ih.cons_right t
  | trip what t _ ih => exact (List.subperm_cons t).2 ih
  | atEnd what _ ih => exact ih
  | @target ts cs ds _ equals _ ih =>
    have hsplit : (cs ++ Parser.badTarget equals :: ds).filterMap (·.token) =
        cs.filterMap (·.token) ++ equals :: ds.filterMap (·.token) := by
      rw [List.filterMap_append]
      rfl
    rw [List.filterMap_append] at ih
    rw [hsplit]
    exact List.perm_middle.subperm.trans ((List.subperm_cons equals).2 ih)

theorem mem_of_token_eq (h : Trail ts cs rest) {c : Complaint} (hc : c ∈ cs) {t : Token}
    (ht : c.token = some t) : t ∈ ts :=
  h.subperm.subset (List.mem_filterMap.2 ⟨c, hc, ht⟩)

/-- What was expected in vain was expected in the order of the tokens, with `stop` after them all,
where alone it can be expected again. -/
theorem pairwise_expected {r : Token → Token → Prop} {stop : Token} (h : Trail ts cs rest)
    (hts : ts.Pairwise r) (hstop : ∀ t ∈ ts, r t stop) (hagain : r stop stop) :
    (cs.filter (·.cause.isExpected)).Pairwise fun c d =>
      r (c.token.getD stop) (d.token.getD stop) := by
  induction h with
  | here => exact .nil
  | pass t _ ih => exact ih (List.pairwise_cons.1 hts).2 (List.forall_mem_cons.1 hstop).2
  | @trip ts cs _ what t h ih =>
    obtain ⟨hfirst, hts⟩ := List.pairwise_cons.1 hts
    obtain ⟨hlast, hstop⟩ := List.forall_mem_cons.1 hstop
    rw [List.filter_cons_of_pos rfl]
    refine List.pairwise_cons.2 ⟨fun d hd => ?_, ih hts hstop⟩
    cases hu : d.token with
    | none => exact hlast
    | some u => exact hfirst u (h.mem_of_token_eq (List.mem_of_mem_filter hd) hu)
  | @atEnd cs _ what h ih =>
    rw [List.filter_cons_of_pos rfl]
    refine List.pairwise_cons.2 ⟨fun d hd => ?_, ih hts hstop⟩
    cases hu : d.token with
    | none => exact hagain
    | some u => cases h.mem_of_token_eq (List.mem_of_mem_filter hd) hu
  | @target _ cs ds _ equals _ ih =>
    have hskip : (cs ++ Parser.badTarget equals :: ds).filter (·.cause.isExpected) =
        (cs ++ ds).filter (·.cause.isExpected) := by
      rw [List.filter_append, List.filter_append, List.filter_cons_of_neg Bool.false_ne_true]
    rw [hskip]
    exact ih (List.pairwise_cons.1 hts).2 (List.forall_mem_cons.1 hstop).2

end Trail

/-! ## Every parser leaves one -/

namespace Parser

variable {α β : Type}

def Forward (p : Parser α) : Prop := ∀ ts, Trail ts (p ts).noted (p ts).rest

theorem forward_pure (a : α) : Forward (pure a) := fun ts => .here ts

theorem forward_fail (what : Expectation) : Forward (fail what : Parser α) := fun ts => .here ts

theorem forward_bind {p : Parser α} {f : α → Parser β} (hp : Forward p)
    (hf : ∀ a, Forward (f a)) : Forward (p >>= f) := by
  intro ts
  have hfirst := hp ts
  show Trail ts (Parser.bind p f ts).noted (Parser.bind p f ts).rest
  unfold Parser.bind
  rcases hpts : p ts with ⟨_ | a, mid, noted⟩ <;> rw [hpts] at hfirst
  · exact hfirst
  · exact hfirst.trans (hf a mid)

theorem forward_map {f : α → β} {p : Parser α} (hp : Forward p) : Forward (f <$> p) :=
  forward_bind hp fun a => forward_pure (f a)

theorem forward_accept (kind : Kind) : Forward (accept kind) := by
  intro ts
  cases ts with
  | nil => exact .here []
  | cons t ts =>
    unfold accept
    dsimp only
    split
    · exact .pass t (.here ts)
    · exact .here (t :: ts)

theorem forward_expect (kind : Kind) (what : Expectation) : Forward (expect kind what) := by
  refine forward_bind (forward_accept kind) fun t => ?_
  cases t with
  | none => exact forward_fail what
  | some t => exact forward_pure t

theorem forward_nested {around : Parser α → Parser α}
    (h : ∀ p, Forward p → Forward (around p)) : Forward (nested around) := by
  have hlevels (rounds : List Token) : Forward (levels around rounds) := by
    induction rounds with
    | nil => exact h _ (forward_fail .expression)
    | cons _ rounds ih => exact h _ ih
  exact fun ts => hlevels ts ts

theorem trail_synchronize (ts : List Token) : Trail ts [] (synchronize ts) := by
  induction ts with
  | nil => exact .here []
  | cons t ts ih =>
    unfold synchronize
    split
    · exact .pass t (.here ts)
    · exact .pass t ih

theorem trail_trip (what : Expectation) (ts : List Token) :
    Trail ts [⟨.expected what, ts.head?⟩] (synchronize ts) := by
  cases ts with
  | nil => exact .atEnd what (.here [])
  | cons t ts =>
    refine .trip what t ?_
    unfold synchronize
    split
    · exact .here ts
    · exact trail_synchronize ts

theorem forward_recover {p : Parser α} (hp : Forward p) : Forward (recover p) := by
  intro ts
  have hfirst := hp ts
  unfold recover
  rcases hpts : p ts with ⟨what | a, mid, noted⟩ <;> rw [hpts] at hfirst
  · exact hfirst.trans (trail_trip what mid)
  · exact hfirst

/-! ### Expressions -/

theorem forward_primary {p : Parser Expr} (hp : Forward p) : Forward (primary p) := by
  intro ts
  cases ts with
  | nil => exact .here []
  | cons t ts =>
    have hgroup := forward_bind hp fun inner =>
      forward_bind (forward_expect .rightParen .parenAfterExpression) fun _ =>
        forward_pure (Expr.grouping inner)
    unfold primary
    dsimp only
    split
    · exact .pass t (.here ts)
    · split
      · exact .pass t (hgroup ts)
      · exact .here (t :: ts)

theorem forward_unary {p : Parser Expr} (hp : Forward p) : Forward (unary p) := by
  intro ts
  induction ts with
  | nil => exact hp []
  | cons t ts ih =>
    unfold unary
    split
    · exact .pass t ih
    · exact hp (t :: ts)

theorem forward_operations (level : Level) {operand : Parser Expr} (h : Forward operand) :
    ∀ rounds left, Forward (operations level operand rounds left)
  | [], left => forward_pure left
  | _ :: rounds, left => by
    intro ts
    cases ts with
    | nil => exact .here []
    | cons t ts =>
      unfold operations
      dsimp only
      split
      · next build _ =>
        have hmore := forward_bind h fun right =>
          forward_operations level h rounds (build left right)
        exact .pass t (hmore ts)
      · exact .here (t :: ts)

theorem forward_chain {level : Level} {operand : Parser Expr} (h : Forward operand) :
    Forward (chain level operand) :=
  forward_bind h fun left ts => forward_operations level h ts left ts

theorem forward_disjunction {p : Parser Expr} (hp : Forward p) : Forward (disjunction p) :=
  forward_chain (forward_chain (forward_chain (forward_chain (forward_chain (forward_chain
    (forward_unary (forward_primary hp)))))))

theorem trail_badTarget {p : Parser Expr} (hp : Forward p) (equals : Token) (left : Expr)
    (ts : List Token) :
    Trail (equals :: ts)
      ((p >>= fun _ => note .invalidAssignmentTarget equals >>= fun _ => pure left) ts).noted
      ((p >>= fun _ => note .invalidAssignmentTarget equals >>= fun _ => pure left) ts).rest := by
  have hvalue := hp ts
  show Trail _ (Parser.bind p _ ts).noted (Parser.bind p _ ts).rest
  unfold Parser.bind
  rcases hpts : p ts with ⟨_ | value, mid, noted⟩ <;> rw [hpts] at hvalue
  · exact .pass equals hvalue
  · have hend : Trail ts (noted ++ []) mid := by
      rw [List.append_nil]
      exact hvalue
    exact .target equals hend

theorem forward_assignment {p : Parser Expr} (hp : Forward p) : Forward (assignment p) := by
  refine forward_bind (forward_disjunction hp) fun left ts => ?_
  rcases head_cases .equal ts with ⟨equals, us, rfl, hk⟩ | hno
  · rw [bind_of_yields (yields_accept_some.2 ⟨rfl, hk, rfl⟩)]
    cases left with
    | var name => exact .pass equals (forward_map hp us)
    | literal _ | grouping _ | unary _ _ _ | binary _ _ _ _ | logical _ _ _ _ | assign _ _ =>
      exact trail_badTarget hp equals _ us
  · rw [bind_of_yields (yields_accept_none.2 ⟨rfl, hno, rfl⟩)]
    exact .here ts

theorem forward_expression : Forward expression := forward_nested fun _ => forward_assignment

/-! ### Statements -/

theorem forward_declarationTail : Forward declarationTail := by
  refine forward_bind (forward_expect _ _) fun name =>
    forward_bind (forward_accept _) fun equals => ?_
  have hend (init : Option Expr) : Forward (do
      let _ ← expect .semicolon .semicolonAfterDeclaration
      pure (.declare name init) : Parser Stmt) :=
    forward_bind (forward_expect _ _) fun _ => forward_pure _
  cases equals with
  | none => exact forward_bind (forward_pure _) hend
  | some _ => exact forward_bind (forward_map forward_expression) hend

theorem forward_semicolon (what : Expectation) (build : Expr → Stmt) :
    Forward (expression >>= fun e => expect .semicolon what >>= fun _ => pure (build e)) :=
  forward_bind forward_expression fun _ => forward_bind (forward_expect _ _) fun _ =>
    forward_pure _

theorem forward_whileTail {p : Parser Stmt} (hp : Forward p) : Forward (whileTail p) :=
  forward_bind (forward_expect _ _) fun _ => forward_bind forward_expression fun _ =>
    forward_bind (forward_expect _ _) fun _ => forward_map hp

theorem forward_ifTail {p : Parser Stmt} (hp : Forward p) : Forward (ifTail p) := by
  refine forward_bind (forward_expect _ _) fun _ => forward_bind forward_expression fun _ =>
    forward_bind (forward_expect _ _) fun _ => forward_bind hp fun _ =>
      forward_bind (forward_accept _) fun other => ?_
  cases other with
  | none => exact forward_pure _
  | some _ => exact forward_map hp

theorem forward_declaration {p : Parser Stmt} (hp : Forward p) : Forward (declaration p) := by
  intro ts
  cases ts with
  | nil => exact hp []
  | cons t ts =>
    unfold declaration
    dsimp only
    split
    · exact .pass t (forward_declarationTail ts)
    · exact hp (t :: ts)

theorem forward_declarations (stop : Option Kind) {p : Parser Stmt} (hp : Forward p) :
    ∀ rounds, Forward (declarations stop p rounds)
  | [] => forward_pure []
  | _ :: rounds => by
    intro ts
    cases ts with
    | nil => exact .here []
    | cons t ts =>
      unfold declarations
      dsimp only
      split
      · exact .here (t :: ts)
      · have hmore := forward_bind (forward_recover (forward_declaration hp)) fun first =>
          forward_bind (forward_declarations stop hp rounds) fun others =>
            forward_pure (first.toList ++ others)
        exact hmore (t :: ts)

theorem forward_blockTail {p : Parser Stmt} (hp : Forward p) : Forward (blockTail p) :=
  forward_bind (fun ts => forward_declarations _ hp ts ts) fun _ =>
    forward_bind (forward_expect _ _) fun _ => forward_pure _

theorem forward_statementAround {p : Parser Stmt} (hp : Forward p) :
    Forward (statementAround p) := by
  intro ts
  cases ts with
  | nil => exact forward_semicolon _ _ []
  | cons t ts =>
    unfold statementAround
    dsimp only
    split
    · exact .pass t (forward_ifTail hp ts)
    · exact .pass t (forward_semicolon _ _ ts)
    · exact .pass t (forward_whileTail hp ts)
    · exact .pass t (forward_blockTail hp ts)
    · exact forward_semicolon _ _ (t :: ts)

theorem forward_statement : Forward statement := forward_nested fun _ => forward_statementAround

theorem forward_program : Forward program :=
  fun ts => forward_declarations none forward_statement ts ts

end Parser

/-! ## The errors of a source -/

theorem location_atToken (cause : SyntaxError.Cause) (t : Token) :
    (SyntaxError.atToken cause t).location = some .atEnd ↔ t.isEnd := by
  cases h : t.isEnd <;> simp [SyntaxError.atToken, h]

theorem exists_trail (source : String) : ∃ rest cs, Trail (words source.toList) cs rest ∧
    (parse (scan source).tokens).errors = cs.map (·.toError (endToken (scan source).tokens)) := by
  obtain ⟨body, rest, noted, hy⟩ :=
    Parser.declarations_ok none Parser.statement (words source.toList) (words source.toList)
  have htrail := Parser.forward_program (words source.toList)
  rw [show Parser.program (words source.toList) = _ from hy] at htrail
  refine ⟨rest, noted, htrail, ?_⟩
  have hwords : beforeEnd (scan source).tokens = words source.toList := beforeEnd_ofText _
  rw [← hwords] at hy
  rw [parse_eq hy]

theorem spans_toError {cs : List Complaint} {stop : Token} (hstop : stop.isEnd)
    (hcs : ∀ c ∈ cs, ∀ t, c.token = some t → ¬ t.isEnd) :
    ((cs.map (·.toError stop)).filter (·.location ≠ some .atEnd)).map (·.span) =
      (cs.filterMap (·.token)).map (·.span) := by
  induction cs with
  | nil => rfl
  | cons c cs ih =>
    obtain ⟨cause, token⟩ := c
    obtain ⟨hc, hmore⟩ := List.forall_mem_cons.1 hcs
    rw [List.map_cons]
    cases token with
    | none =>
      have hlocation : (Complaint.toError stop ⟨cause, none⟩).location = some .atEnd :=
        (location_atToken cause stop).2 hstop
      rw [List.filter_cons_of_neg (by simp [hlocation])]
      exact ih hmore
    | some t =>
      have hlocation : (Complaint.toError stop ⟨cause, some t⟩).location ≠ some .atEnd :=
        mt (location_atToken cause t).1 (hc t rfl)
      rw [List.filter_cons_of_pos (by simp [hlocation]), List.map_cons, ih hmore]
      rfl

/-- No token of a source is reported twice by the parser, and what it expected in vain it reports in
the order of the tokens. -/
theorem tokens_reported_once (source : String) :
    (((parse (scan source).tokens).errors.filter
      (·.location ≠ some .atEnd)).map (·.span)).Nodup ∧
    ((parse (scan source).tokens).errors.filter (·.cause.isExpected)).Pairwise fun e f =>
      (e.location ≠ some .atEnd ∧ e.span.start < f.span.start) ∨
        (e.location = some .atEnd ∧ f.location = some .atEnd) := by
  obtain ⟨rest, cs, htrail, herrors⟩ := exists_trail source
  have hstop := isEnd_endToken (scan source).tokens
  have hends : ∀ t ∈ words source.toList, ¬ t.isEnd := fun _ => Lexeme.isEnd_of_mem_words
  have hstarts := starts_increase source
  rw [tokens_scan, ← endToken_scan, List.pairwise_append] at hstarts
  obtain ⟨hstarts, -, hlast⟩ := hstarts
  rw [herrors]
  constructor
  · have hspans : ((words source.toList).map (·.span)).Nodup :=
      List.pairwise_map.2 (hstarts.imp fun hlt heq => by rw [heq] at hlt; omega)
    obtain ⟨used, hperm, hsub⟩ := htrail.subperm
    rw [spans_toError hstop fun c hc t ht => hends t (htrail.mem_of_token_eq hc ht)]
    exact (hperm.map _).nodup_iff.1 (hspans.sublist (hsub.map _))
  · have hordered : (words source.toList).Pairwise fun t u =>
        (¬ t.isEnd ∧ t.span.start < u.span.start) ∨ (t.isEnd ∧ u.isEnd) :=
      hstarts.imp_of_mem fun ht _ hlt => .inl ⟨hends _ ht, hlt⟩
    have hall := htrail.pairwise_expected hordered
      (fun t ht => .inl ⟨hends t ht, hlast t ht _ (List.mem_singleton_self _)⟩)
      (.inr ⟨hstop, hstop⟩)
    rw [List.filter_map, List.pairwise_map]
    refine hall.imp fun {c d} h => ?_
    rw [ne_eq, Complaint.toError, Complaint.toError, location_atToken, location_atToken]
    exact h

-- Both blocks lack their end.
example : (parse (scan "\x7b 1 = ); 2 = 3; \x7b").tokens).errors.map
    (fun e => (e.cause, e.location)) =
    [(.expected .expression, some (.atLexeme ")")),
      (.invalidAssignmentTarget, some (.atLexeme "=")),
      (.expected .braceAfterBlock, some .atEnd), (.expected .braceAfterBlock, some .atEnd)] := by
  decide +kernel

end Treewalk
