import Treewalk.Proofs.Session.Reports
import Treewalk.Proofs.Syntax.Layout
import Treewalk.Proofs.Syntax.ReadBack

/-!
# Sources that differ in their layout

Where the words of a source stand decides nothing. Two sources with the same words are parsed and
run alike, and only the places of their errors differ.
-/

namespace Treewalk

theorem Token.moves_bare : Moves bare where
  kind _ := rfl
  lexeme _ := rfl
  literal _ := rfl

/-- The errors of a log without their places. -/
def ErrorLog.bare (log : ErrorLog) : ErrorLog where
  syntaxErrors := log.syntaxErrors.map (·.bare)
  runtimeErrors := log.runtimeErrors.map (·.mapToken .bare)

/-- The same words, in whatever layout. -/
def SameWords (s t : String) : Prop :=
  (scan s).tokens.map Token.bare = (scan t).tokens.map Token.bare

namespace SameWords

variable {s t : String} (h : SameWords s t)
include h

theorem statements : (statementsOf s).map (·.mapTokens .bare) =
    (statementsOf t).map (·.mapTokens .bare) := by
  unfold statementsOf
  rw [← statements_parse_moved Token.moves_bare, ← statements_parse_moved Token.moves_bare, h]

theorem errors : (parse (scan s).tokens).errors.map SyntaxError.bare =
    (parse (scan t).tokens).errors.map SyntaxError.bare := by
  have hs := errors_parse_moved Token.moves_bare (scan s).tokens
  have ht := errors_parse_moved Token.moves_bare (scan t).tokens
  rw [← hs, ← ht, h]

theorem interpret (n : Nat) (st : State) :
    (interpret n (statementsOf s) st).map (·.mapToken .bare) =
      (interpret n (statementsOf t) st).map (·.mapToken .bare) := by
  unfold Treewalk.interpret
  rw [← runAll_mapTokens (Stmt.exec_mapTokens Token.moves_bare n), h.statements,
    runAll_mapTokens (Stmt.exec_mapTokens Token.moves_bare n)]

end SameWords

namespace Session

/-! ## When a run ends -/

/-- Every bound that is high enough gives this. -/
def Ends (source : String) (before : Session) (status : Status) (log : ErrorLog)
    (after : Session) : Prop :=
  ∃ bound, ∀ n, bound ≤ n →
    before.runWith ErrorLog.reporter n source {} = some (status, log, after)

theorem runWith_refines {ρ : Type} {reporter : Reporter ρ} {n m : Nat} (hnm : n ≤ m)
    {source : String} {log log' : ρ} {status : Status} {before after : Session}
    (h : before.runWith reporter n source log = some (status, log', after)) :
    before.runWith reporter m source log = some (status, log', after) := by
  by_cases hsource : WellFormed source
  · rw [runWith_of_wellFormed hsource, Option.map_eq_some_iff] at h ⊢
    obtain ⟨ending, hending, heq⟩ := h
    exact ⟨ending, interpret_refines hnm hending, heq⟩
  · rw [runWith_of_faulty hsource] at h ⊢
    exact h

theorem ends_of_runWith {n : Nat} {source : String} {log : ErrorLog} {status : Status}
    {before after : Session}
    (h : before.runWith ErrorLog.reporter n source {} = some (status, log, after)) :
    Ends source before status log after :=
  ⟨n, fun _ hm => runWith_refines hm h⟩

end Session

/-! ## Two layouts -/

theorem ErrorLog.bare_tellAll_eventsOf (source message : String) (error : Option RuntimeError) :
    (reporter.tellAll {} (eventsOf source message error)).bare =
      ⟨(syntaxErrorsOf source).map (·.bare), error.toList.map (·.mapToken .bare)⟩ := by
  unfold bare
  rw [syntaxErrors_tellAll, runtimeErrors_tellAll, syntaxErrors_eventsOf, runtimeErrors_eventsOf]
  rfl

/-- What a run gives, but for places. Progress is left out: it counts bytes, and layout is made of
bytes. -/
def bareRun : Status × ErrorLog × Session → Status × ErrorLog × Session
  | (status, log, after) => (status, log.bare, after)

/-- The part of an ending that a run gives. -/
def Ending.toRun (errors : List SyntaxError) (ending : Ending) : Status × ErrorLog × Session :=
  (if ending.error.isSome then .runtimeError else .completed, ⟨errors, ending.error.toList⟩,
    ⟨ending.state⟩)

theorem Session.bareRun_of_wellFormed {source : String} (h : WellFormed source) (n : Nat)
    (session : Session) :
    (session.runWith ErrorLog.reporter n source {}).map bareRun =
      ((interpret n (statementsOf source) session.state).map (·.mapToken .bare)).map
        (Ending.toRun ((syntaxErrorsOf source).map (·.bare))) := by
  rw [runWith_of_wellFormed h, Option.map_map, Option.map_map]
  congr 1
  funext ending
  obtain ⟨error, state⟩ := ending
  simp only [Function.comp, bareRun, ErrorLog.bare_tellAll_eventsOf]
  cases error <;> rfl

theorem SameWords.bareRun {s t : String} (h : SameWords s t) (hs : (scan s).errors = [])
    (ht : (scan t).errors = []) (n : Nat) (session : Session) :
    (session.runWith ErrorLog.reporter n s {}).map bareRun =
      (session.runWith ErrorLog.reporter n t {}).map bareRun := by
  have herrors : (syntaxErrorsOf s).map (·.bare) = (syntaxErrorsOf t).map (·.bare) := by
    unfold syntaxErrorsOf
    rw [hs, ht]
    exact h.errors
  have hwell : WellFormed s ↔ WellFormed t := by
    rw [wellFormed_iff, wellFormed_iff, ← List.map_eq_nil_iff, herrors, List.map_eq_nil_iff]
  by_cases hsource : WellFormed s
  · rw [Session.bareRun_of_wellFormed hsource, Session.bareRun_of_wellFormed (hwell.1 hsource),
      h.interpret, herrors]
  · rw [Session.runWith_of_faulty hsource, Session.runWith_of_faulty (mt hwell.2 hsource)]
    simp only [Option.map_some, Treewalk.bareRun, ErrorLog.bare_tellAll_eventsOf, herrors]

/-- Two sources with the same words are parsed and run alike, but for places. -/
theorem layout_is_ignored {s t : String} (hs : (scan s).errors = []) (ht : (scan t).errors = [])
    (h : (scan s).tokens.map Token.bare = (scan t).tokens.map Token.bare) :
    (parse (scan s).tokens).statements.map (·.mapTokens .bare) =
      (parse (scan t).tokens).statements.map (·.mapTokens .bare) ∧
    (parse (scan s).tokens).errors.map (·.bare) = (parse (scan t).tokens).errors.map (·.bare) ∧
    ∀ session : Session,
      (∀ n, session.runWith ErrorLog.reporter n s {} = none ∧
        session.runWith ErrorLog.reporter n t {} = none) ∨
      ∃ status log log' after, session.Ends s status log after ∧
        session.Ends t status log' after ∧ log.bare = log'.bare := by
  have hwords : SameWords s t := h
  refine ⟨hwords.statements, hwords.errors, fun session => ?_⟩
  have hrun := fun n => hwords.bareRun hs ht n session
  -- Runs of the two under the same bound agree, so one bound serves both.
  by_cases hends : ∃ n run, session.runWith ErrorLog.reporter n s {} = some run
  · obtain ⟨n, ⟨status, log, after⟩, hends⟩ := hends
    have hrun := hrun n
    rw [hends, Option.map_some] at hrun
    obtain ⟨⟨status', log', after'⟩, hends', heq⟩ := Option.map_eq_some_iff.1 hrun.symm
    simp only [bareRun, Prod.mk.injEq] at heq
    obtain ⟨rfl, hlog, rfl⟩ := heq
    exact .inr ⟨_, log, log', _, Session.ends_of_runWith hends, Session.ends_of_runWith hends',
      hlog.symm⟩
  · left
    intro n
    have hnone : session.runWith ErrorLog.reporter n s {} = none :=
      Option.eq_none_iff_forall_ne_some.2 fun run hsome => hends ⟨n, run, hsome⟩
    have hrun := hrun n
    rw [hnone, Option.map_none] at hrun
    exact ⟨hnone, Option.map_eq_none_iff.1 hrun.symm⟩

/-- A comment and two line breaks change nothing but the place of the error. -/
theorem layout_is_ignored_comment : ∃ status log log' after,
    Session.Ends "scream nil; b;" {} status log after ∧
      Session.Ends "scream nil; // shown\n\nb;" {} status log' after ∧ log.bare = log'.bare := by
  have hs : (scan "scream nil; b;").errors = [] := by decide +kernel
  have ht : (scan "scream nil; // shown\n\nb;").errors = [] := by decide +kernel
  have hwords : (scan "scream nil; b;").tokens.map Token.bare =
      (scan "scream nil; // shown\n\nb;").tokens.map Token.bare := by
    rw [scan, scan, tokens_ofText, tokens_ofText]
    cbv
  obtain ⟨-, -, hruns⟩ := layout_is_ignored hs ht hwords
  rcases hruns {} with hnone | hends
  · have hwell : WellFormed "scream nil; b;" := ⟨hs, by decide +kernel⟩
    have hinterpret : (interpret 1 (statementsOf "scream nil; b;") {}).isSome := by decide +kernel
    have hnone := (hnone 1).1
    rw [Session.runWith_of_wellFormed hwell, Option.map_eq_none_iff] at hnone
    simp [hnone] at hinterpret
  · exact hends

end Treewalk
