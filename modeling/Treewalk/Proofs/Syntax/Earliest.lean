import Treewalk.Proofs.Syntax.Layout
import Treewalk.Proofs.Syntax.Settling
import Treewalk.Token.Scan

/-!
# The first error is at the earliest token

What stands before the first thing expected in vain can be gone on with to a program. With the
token that it was expected at, it cannot.
-/

namespace Treewalk

namespace Grammar

open Token (Kind)

/-! ## No end inside -/

variable {rules : Rules}

theorem Level.ne_eof {l : Level} {kind : Kind} {node : Token → Expr → Expr → Expr}
    (h : l.node? kind = some node) : kind ≠ .eof := by
  rintro rfl
  cases l <;> cases h

theorem Derives.ne_eof {symbol : Symbol} {ts bad : List Token} {e : Expr}
    (h : Derives rules symbol ts e bad) : ∀ t ∈ ts, t.kind ≠ .eof := by
  induction h with
  | falseWord hk | trueWord hk | nilWord hk | number hk | string hk | name hk => simp [hk]
  | group ho _ hc ih => simpa [or_imp, forall_and, ho, hc] using ih
  | @unary t op _ _ _ hk _ ih =>
    have hop : op.kind ≠ .eof := by cases op <;> simp [UnaryOp.kind]
    simpa [hk, hop] using ih
  | primary _ ih => exact ih
  | level _ _ ih ih' => exact List.forall_mem_append.2 ⟨ih, ih'⟩
  | done => simp
  | more hn _ _ ih ih' => simpa [or_imp, forall_and, Level.ne_eof hn] using ⟨ih, ih'⟩
  | operand _ ih => exact ih
  | assign hname hk _ ih => simpa [hname, hk] using ih
  | badAssign _ _ _ hk _ ih ih' => simpa [or_imp, forall_and, hk] using ⟨ih, ih'⟩

mutual

theorem Statement.ne_eof {ts bad : List Token} {s : Stmt} (h : Statement rules ts s bad) :
    ∀ t ∈ ts, t.kind ≠ .eof :=
  match h with
  | .ifThen hi ho hd hc hyes => by
    simpa [or_imp, forall_and, hi, ho, hc] using ⟨hd.ne_eof, hyes.ne_eof⟩
  | .ifElse hi ho hd hc hyes _ hk hno => by
    simpa [or_imp, forall_and, hi, ho, hc, hk] using ⟨hd.ne_eof, hyes.ne_eof, hno.ne_eof⟩
  | .loop hw ho hd hc hbody => by
    simpa [or_imp, forall_and, hw, ho, hc] using ⟨hd.ne_eof, hbody.ne_eof⟩
  | .block ho hbody hc => by simpa [or_imp, forall_and, ho, hc] using hbody.ne_eof
  | .print hk hd hs => by simpa [or_imp, forall_and, hk, hs] using hd.ne_eof
  | .expression hd hs => by simpa [or_imp, forall_and, hs] using hd.ne_eof

theorem Declaration.ne_eof {ts bad : List Token} {s : Stmt} (h : Declaration rules ts s bad) :
    ∀ t ∈ ts, t.kind ≠ .eof :=
  match h with
  | .var hv hname hs => by simp [hv, hname, hs]
  | .init hv hname hk hd hs => by
    simpa [or_imp, forall_and, hv, hname, hk, hs] using hd.ne_eof
  | .statement hs => hs.ne_eof

theorem Declarations.ne_eof {ts bad : List Token} {body : List Stmt}
    (h : Declarations rules ts body bad) : ∀ t ∈ ts, t.kind ≠ .eof :=
  match h with
  | .nil => by simp
  | .cons hd hbody => List.forall_mem_append.2 ⟨hd.ne_eof, hbody.ne_eof⟩

end

/-! ## Programs and their starts -/

/-- A program of the relaxed grammar and its end token. -/
def Complete (tokens : List Token) : Prop :=
  ∃ ts last body bad, tokens = ts ++ [last] ∧ last.isEnd ∧ Declarations relaxed ts body bad

/-- The tokens can be gone on with to a program. -/
def Viable (tokens : List Token) : Prop := ∃ more, Complete (tokens ++ more)

end Grammar

namespace Parser

theorem clean_program {ts : List Token} {body : List Stmt} (h : DerivedBody ts body) :
    Clean (program ts).complaints := by
  obtain ⟨bad, hd⟩ := h
  obtain ⟨noted, hy, hperm⟩ := program_complete rfl hd
  rw [show program ts = _ from hy]
  exact clean_of_perm hperm

theorem Trips.not_clean {α : Type} {o : Outcome α} {what : Expectation} {next : Option Token}
    (h : Trips o what next) : ¬ Clean o.complaints := by
  obtain ⟨before, later, hc, -⟩ := h
  rw [hc]
  exact fun hclean => hclean ⟨.expected what, next⟩ (by simp) what rfl

end Parser

open Grammar (Viable sample)
open Treewalk.Parser (Balks DerivedBody Clean)

/-- Whether something was expected that was not there. -/
def SyntaxError.Cause.isExpected : SyntaxError.Cause → Bool
  | .expected _ => true
  | _ => false

theorem find?_eq_none_of_clean {noted : List Complaint} (hclean : Clean noted) (stop : Token) :
    (noted.map (·.toError stop)).find? (·.cause.isExpected) = none := by
  rw [List.find?_map, Option.map_eq_none_iff, List.find?_eq_none]
  intro c hc
  show ¬ c.cause.isExpected = true
  cases hcause : c.cause with
  | expected what => exact absurd hcause (hclean c hc what)
  | _ => nofun

theorem find?_eq_of_clean {before later : List Complaint} {what : Expectation}
    {next : Option Token} (hclean : Clean before) (stop : Token) :
    ((before ++ ⟨.expected what, next⟩ :: later).map (·.toError stop)).find? (·.cause.isExpected) =
      some (.atToken (.expected what) (next.getD stop)) := by
  rw [List.map_append, List.find?_append, find?_eq_none_of_clean hclean]
  rfl

theorem viable_of_derived {used more : List Token} {body : List Stmt}
    (h : DerivedBody (used ++ more) body) : Viable used := by
  obtain ⟨bad, hd⟩ := h
  exact ⟨more ++ [sample .eof], used ++ more, sample .eof, body, bad, by simp, rfl, hd⟩

theorem not_viable_of_balks {used rest : List Token} {what : Expectation} {stop : Token}
    (hb : Balks Parser.program used rest.head? what) (hrest : ∀ t ∈ rest, ¬ t.isEnd)
    (hstop : stop.isEnd) : ¬ Viable (used ++ [rest.head?.getD stop]) := by
  rintro ⟨after, ts, last, body, bad, heq, hlast, hd⟩
  have hderived : DerivedBody ts body := ⟨bad, hd⟩
  cases rest with
  | nil =>
    rcases List.prefix_concat_iff.1 ⟨after, heq⟩ with hwhole | ⟨inside, rfl⟩
    · obtain ⟨rfl, -⟩ := List.append_inj' hwhole rfl
      have htrips := hb [] rfl
      rw [List.append_nil] at htrips
      exact htrips.not_clean (Parser.clean_program hderived)
    · -- The end token would stand inside the program.
      exact hd.ne_eof stop (by simp) (by simpa [Token.isEnd] using hstop)
  | cons t rest =>
    rcases List.prefix_concat_iff.1 ⟨after, heq⟩ with hwhole | ⟨inside, rfl⟩
    · obtain ⟨-, ht⟩ := List.append_inj' hwhole rfl
      obtain rfl : t = last := by simpa using ht
      exact hrest t (by simp) hlast
    · rw [List.append_assoc] at hderived
      exact (hb (t :: inside) rfl).not_clean (Parser.clean_program hderived)

/-- What stands before the first thing expected in vain can be gone on with to a program, and with
the token after it it cannot. -/
theorem first_error_is_earliest {tokens : List Token} {e : SyntaxError}
    (h : (parse tokens).errors.find? (·.cause.isExpected) = some e) :
    ∃ used t what, used ++ [t] <+: beforeEnd tokens ++ [endToken tokens] ∧
      e = .atToken (.expected what) t ∧ Viable used ∧ ¬ Viable (used ++ [t]) := by
  have herrors : (parse tokens).errors =
      (Parser.program (beforeEnd tokens)).complaints.map (·.toError (endToken tokens)) := rfl
  have hbefore : ∀ t ∈ beforeEnd tokens, ¬ t.isEnd := fun t ht => by
    simpa using List.all_eq_true.1 List.all_takeWhile t ht
  have hsettled := Parser.settled_program (beforeEnd tokens)
  rw [herrors] at h
  generalize beforeEnd tokens = ts at h hbefore hsettled ⊢
  cases hsettled with
  | whole used rest body hd hends =>
    -- Then the tokens are a program, and nothing is expected in vain.
    obtain rfl : rest = [] := by
      cases rest with
      | nil => rfl
      | cons t rest => exact absurd (hends t rfl) nofun
    rw [List.append_nil, find?_eq_none_of_clean (Parser.clean_program hd)] at h
    cases h
  | balked used rest more what body hb hmore =>
    obtain ⟨before, later, hc, hclean⟩ := hb rest rfl
    rw [hc, find?_eq_of_clean hclean, Option.some.injEq] at h
    refine ⟨used, rest.head?.getD (endToken tokens), what, ?_, h.symm, viable_of_derived hmore,
      not_viable_of_balks hb ?_ (isEnd_endToken tokens)⟩
    · cases rest <;> simp
    · exact fun t ht => hbefore t (List.mem_append_right used ht)

theorem first_error_is_earliest_after_condition :
    (parse (scan "if (a) b c; )").tokens).errors.find? (·.cause.isExpected) =
      some ⟨.expected .semicolonAfterExpression, 1, some (.atLexeme "c"), ⟨9, 10⟩⟩ ∧
    ∃ used t what, used ++ [t] <+: beforeEnd (scan "if (a) b c; )").tokens ++
        [endToken (scan "if (a) b c; )").tokens] ∧
      ⟨.expected .semicolonAfterExpression, 1, some (.atLexeme "c"), ⟨9, 10⟩⟩ =
        SyntaxError.atToken (.expected what) t ∧
      Viable used ∧ ¬ Viable (used ++ [t]) := by
  have h : (parse (scan "if (a) b c; )").tokens).errors.find? (·.cause.isExpected) =
      some ⟨.expected .semicolonAfterExpression, 1, some (.atLexeme "c"), ⟨9, 10⟩⟩ := by
    decide +kernel
  exact ⟨h, first_error_is_earliest h⟩

end Treewalk
