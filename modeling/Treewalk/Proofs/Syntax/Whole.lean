import Treewalk.Proofs.Syntax.Progress
import Treewalk.Token.Scan

/-!
# Whole token lists

A program without errors is parsed the same whatever stands after it, and what stands after it is
parsed as if nothing stood before. A list of tokens is a single expression just if a semicolon makes
it an expression statement.
-/

namespace Treewalk

open Grammar (Derives Declarations strict)
open Treewalk.Parser (Yields)

variable {ts us : List Token}

/-! ## Where the end is -/

theorem beforeEnd_append (hts : ∀ t ∈ ts, ¬ t.isEnd) (us : List Token) :
    beforeEnd (ts ++ us) = ts ++ beforeEnd us :=
  List.takeWhile_append_of_pos fun t ht => by simpa using hts t ht

theorem beforeEnd_eq_self (hts : ∀ t ∈ ts, ¬ t.isEnd) : beforeEnd ts = ts := by
  have h := beforeEnd_append hts []
  rw [List.append_nil] at h
  exact h.trans (List.append_nil ts)

theorem endToken_append (hts : ∀ t ∈ ts, ¬ t.isEnd) (hus : us ≠ []) :
    endToken (ts ++ us) = endToken us := by
  have hnone : ts.find? Token.isEnd = none := List.find?_eq_none.2 hts
  have hlast : (ts ++ us).getLast? = us.getLast? := by
    rw [List.getLast?_append, Option.or_of_isSome (by simpa using hus)]
  unfold endToken
  rw [List.find?_append, hnone, Option.none_or, hlast]

theorem head?_beforeEnd {p : Token → Prop} (h : ∀ t ∈ us.head?, p t) :
    ∀ t ∈ (beforeEnd us).head?, p t := by
  intro t ht
  apply h
  cases us with
  | nil => cases ht
  | cons u us =>
    rw [beforeEnd, List.takeWhile_cons] at ht
    split at ht
    · exact ht
    · cases ht

/-! ## A program and what follows -/

/-- The only look past a finished program is for an `else`. -/
theorem Parser.yields_program_append {ts us rest bad : List Token} {body more : List Stmt}
    {noted : List Complaint} (h : Declarations strict ts body bad)
    (hus : ∀ t ∈ us.head?, t.kind ≠ .elseKw) (hy : Yields program us more rest noted) :
    Yields program (ts ++ us) (body ++ more) rest noted :=
  match h with
  | .nil => hy
  | .cons hd hbody => by
    have hothers := yields_program_append hbody hus hy
    obtain ⟨before, hfirst, hperm⟩ := declaration_complete rfl hd fun _ => head_ne_else hbody hus
    obtain rfl : before = [] := by
      rw [hd.bad_eq_nil rfl] at hperm
      exact List.perm_nil.1 hperm
    obtain ⟨t, vs, rfl, -⟩ := hd.head
    rw [List.append_assoc]
    show program (t :: (vs ++ _)) = _
    rw [program_cons]
    exact yields_bind.2 ⟨_, _, [], noted, yields_recover_some.2 hfirst,
      yields_map.2 ⟨_, hothers, rfl⟩, rfl⟩

/-- What stands after a program without errors is parsed by itself. Only an `else` could belong to
the program. -/
theorem parse_after_program (hts : ∀ t ∈ ts, ¬ t.isEnd) (h : (parse ts).errors = [])
    (hus : ∀ t ∈ us.head?, t.kind ≠ .elseKw) :
    (parse (ts ++ us)).statements = (parse ts).statements ++ (parse us).statements ∧
      (parse (ts ++ us)).errors = (parse us).errors := by
  obtain ⟨body, bad, hd⟩ := parse_errors_eq_nil_iff.1 h
  have hbody : (parse ts).statements = body := (parse_of_derives rfl hd).1
  obtain ⟨more, rest, noted, hy⟩ :=
    Parser.declarations_ok none Parser.statement (beforeEnd us) (beforeEnd us)
  rw [beforeEnd_eq_self hts] at hd
  have hboth := Parser.yields_program_append hd (head?_beforeEnd hus) hy
  rw [← beforeEnd_append hts] at hboth
  rw [parse_eq hboth, parse_eq hy, hbody]
  refine ⟨rfl, ?_⟩
  cases us with
  | nil =>
    -- The end may be elsewhere, but there is nothing to complain about.
    obtain rfl : [] = noted := (Outcome.mk.inj hy).2.2
    rfl
  | cons u us => rw [endToken_append hts (by simp)]

/-- Two `if` that would both take an `else`, before a statement that fails and one that does not. -/
theorem parse_after_program_ifs :
    (∀ t ∈ beforeEnd (scan "if (a) if (b) c;").tokens, ¬ t.isEnd) ∧
    (parse (beforeEnd (scan "if (a) if (b) c;").tokens)).errors = [] ∧
    (∀ t ∈ (scan ") else; d;").tokens.head?, t.kind ≠ .elseKw) ∧
    (parse (beforeEnd (scan "if (a) if (b) c;").tokens ++
      (scan ") else; d;").tokens)).statements.length = 2 ∧
    (parse (beforeEnd (scan "if (a) if (b) c;").tokens ++ (scan ") else; d;").tokens)).errors =
      [⟨.expected .expression, 1, some (.atLexeme ")"), ⟨0, 1⟩⟩] := by
  have hts : ∀ t ∈ beforeEnd (scan "if (a) if (b) c;").tokens, ¬ t.isEnd := by decide +kernel
  have hfirst : (parse (beforeEnd (scan "if (a) if (b) c;").tokens)).errors = [] := by
    decide +kernel
  have hus : ∀ t ∈ (scan ") else; d;").tokens.head?, t.kind ≠ .elseKw := by decide +kernel
  obtain ⟨hstatements, herrors⟩ := parse_after_program hts hfirst hus
  refine ⟨hts, hfirst, hus, ?_, ?_⟩
  · rw [hstatements]
    decide +kernel
  · rw [herrors]
    decide +kernel

/-! ## A single expression -/

theorem Grammar.Declarations.eq_expression {rules : Rules} {ts bad : List Token} {e : Expr}
    (h : Declarations rules ts [.expression e] bad) :
    ∃ us semi, ts = us ++ [semi] ∧ Derives rules .assignment us e bad := by
  cases h with
  | cons hd hnone =>
    cases hnone with
    | nil =>
      cases hd with
      | statement hs =>
        cases hs with
        | @expression semi us _ bad hd =>
          exact ⟨us, semi, List.append_nil _, by rw [List.append_nil]; exact hd⟩

/-- A list of tokens is the expression `e` just if with a semicolon it is the one statement `e`. -/
theorem parseExpression_iff_statement (hts : ∀ t ∈ ts, ¬ t.isEnd) {semi : Token}
    (hsemi : semi.kind = .semicolon) (e : Expr) :
    parseExpression ts = .ok e ↔ (parse (ts ++ [semi])).errors = [] ∧
      (parse (ts ++ [semi])).statements = [.expression e] := by
  have hall : beforeEnd (ts ++ [semi]) = ts ++ [semi] := by
    rw [beforeEnd_append hts, beforeEnd_eq_self]
    simp [Token.isEnd, hsemi]
  rw [Parser.parseExpression_eq_ok_iff, beforeEnd_eq_self hts]
  constructor
  · intro hd
    have hprogram : Declarations strict (ts ++ [semi]) [.expression e] [] := by
      simpa using Declarations.cons (.statement (.expression hd hsemi)) .nil
    rw [← hall] at hprogram
    obtain ⟨hbody, herrors⟩ := parse_of_derives rfl hprogram
    exact ⟨List.perm_nil.1 herrors, hbody⟩
  · rintro ⟨herrors, hbody⟩
    obtain ⟨body, bad, hd⟩ := parse_errors_eq_nil_iff.1 herrors
    obtain rfl : body = [.expression e] := (parse_of_derives rfl hd).1.symm.trans hbody
    rw [hall] at hd
    obtain ⟨us, last, heq, hd⟩ := hd.eq_expression
    obtain ⟨rfl, -⟩ := List.append_inj' heq rfl
    obtain rfl : bad = [] := hd.bad_eq_nil rfl
    exact hd

theorem parseExpression_iff_statement_assign :
    let a : Token := ⟨.identifier, "a", none, 1, ⟨0, 1⟩⟩
    let equals : Token := ⟨.equal, "=", none, 1, ⟨2, 3⟩⟩
    let bang : Token := ⟨.bang, "!", none, 1, ⟨4, 5⟩⟩
    let b : Token := ⟨.identifier, "b", none, 1, ⟨5, 6⟩⟩
    let semi : Token := ⟨.semicolon, ";", none, 1, ⟨6, 7⟩⟩
    let e : Expr := .assign a (.unary .not bang (.var b))
    parseExpression [a, equals, bang, b] = .ok e ∧
      (parse [a, equals, bang, b, semi]).errors = [] ∧
      (parse [a, equals, bang, b, semi]).statements = [.expression e] := by
  intro a equals bang b semi e
  have hts : ∀ t ∈ [a, equals, bang, b], ¬ t.isEnd := by decide
  have hexpr : parseExpression [a, equals, bang, b] = .ok e := by cbv
  exact ⟨hexpr, (parseExpression_iff_statement hts rfl e).1 hexpr⟩

end Treewalk
