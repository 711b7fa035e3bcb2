import Treewalk.Proofs.Eval.Scopes
import Treewalk.Proofs.Session.Pieces

/-!
# What a run reports and leaves

A run tells every reporter the same events. All syntax errors are among them, and if there are any
the run changes nothing. Whatever was run before, only the global scope is open after a run, and
the names that were bound are the first that are bound.
-/

namespace Treewalk

/-! ## Events -/

/-- What a reporter is told. -/
inductive Event where
  | progress (message : String)
  | syntaxError (e : SyntaxError)
  | runtimeError (e : RuntimeError)

namespace Event

def syntaxError? : Event → Option SyntaxError
  | syntaxError e => some e
  | _ => none

def runtimeError? : Event → Option RuntimeError
  | runtimeError e => some e
  | _ => none

def diagnostic? : Event → Option Diagnostic
  | progress _ => none
  | syntaxError e => some e.diagnostic
  | runtimeError e => some e.diagnostic

end Event

def Reporter.tell {ρ : Type} (reporter : Reporter ρ) (log : ρ) : Event → ρ
  | .progress message => reporter.trace log message
  | .syntaxError e => reporter.syntaxError log e
  | .runtimeError e => reporter.runtimeError log e

def Reporter.tellAll {ρ : Type} (reporter : Reporter ρ) (log : ρ) (events : List Event) : ρ :=
  events.foldl reporter.tell log

theorem Reporter.view_tellAll {ρ α : Type} {reporter : Reporter ρ} {view : ρ → List α}
    {shown : Event → Option α}
    (h : ∀ log event, view (reporter.tell log event) = view log ++ (shown event).toList) (log : ρ)
    (events : List Event) :
    view (reporter.tellAll log events) = view log ++ events.filterMap shown := by
  unfold tellAll
  induction events generalizing log with
  | nil => simp
  | cons event events ih =>
    rw [List.foldl_cons, ih, h, List.filterMap_cons, List.append_assoc]
    cases shown event <;> rfl

theorem ErrorLog.syntaxErrors_tellAll (log : ErrorLog) (events : List Event) :
    (reporter.tellAll log events).syntaxErrors =
      log.syntaxErrors ++ events.filterMap Event.syntaxError? := by
  refine Reporter.view_tellAll (fun log event => ?_) log events
  cases event <;> simp [Reporter.tell, reporter, Event.syntaxError?]

theorem ErrorLog.runtimeErrors_tellAll (log : ErrorLog) (events : List Event) :
    (reporter.tellAll log events).runtimeErrors =
      log.runtimeErrors ++ events.filterMap Event.runtimeError? := by
  refine Reporter.view_tellAll (fun log event => ?_) log events
  cases event <;> simp [Reporter.tell, reporter, Event.runtimeError?]

theorem Report.syntaxErrors_tellAll (report : Report) (events : List Event) :
    (reporter.tellAll report events).syntaxErrors =
      report.syntaxErrors ++ events.filterMap Event.syntaxError? := by
  refine Reporter.view_tellAll (fun log event => ?_) report events
  cases event <;> simp [Reporter.tell, reporter, Event.syntaxError?]

theorem Report.runtimeError_tellAll (report : Report) (events : List Event) :
    (reporter.tellAll report events).runtimeError =
      (events.filterMap Event.runtimeError?).getLast?.or report.runtimeError := by
  unfold Reporter.tellAll
  induction events generalizing report with
  | nil => rfl
  | cons event events ih =>
    rw [List.foldl_cons, ih]
    cases event with
    | progress message | syntaxError e => rfl
    | runtimeError e =>
      have hcons : (Event.runtimeError e :: events).filterMap Event.runtimeError? =
          e :: events.filterMap Event.runtimeError? := rfl
      rw [hcons, List.getLast?_cons]
      cases (events.filterMap Event.runtimeError?).getLast? <;> rfl

theorem DiagnosticLog.diagnostics_tellAll (verbose : Bool) (log : DiagnosticLog)
    (events : List Event) : ((reporter verbose).tellAll log events).diagnostics =
      log.diagnostics ++ events.filterMap Event.diagnostic? := by
  refine Reporter.view_tellAll (fun log event => ?_) log events
  cases event with
  | progress message => cases verbose <;> simp [Reporter.tell, reporter, Event.diagnostic?]
  | syntaxError e | runtimeError e => simp [Reporter.tell, reporter, add, Event.diagnostic?]

/-! ## The events of a run -/

/-- All errors of a source that is not run yet. -/
def syntaxErrorsOf (source : String) : List SyntaxError :=
  (scan source).errors ++ (parse (scan source).tokens).errors

theorem wellFormed_iff {source : String} : WellFormed source ↔ syntaxErrorsOf source = [] :=
  List.append_eq_nil_iff.symm

/-- Everything that is said of the source, what comes of it, and the error that ends it. -/
def eventsOf (source message : String) (error : Option RuntimeError) : List Event :=
  .progress s!"Scanning {source.utf8ByteSize} bytes" :: (scan source).errors.map .syntaxError ++
    .progress s!"Parsing {(scan source).tokens.length} tokens" ::
      (parse (scan source).tokens).errors.map .syntaxError ++
    .progress message :: error.toList.map .runtimeError

theorem filterMap_eventsOf {α : Type} {shown : Event → Option α}
    (h : ∀ message, shown (.progress message) = none) (source message : String)
    (error : Option RuntimeError) : (eventsOf source message error).filterMap shown =
      (syntaxErrorsOf source).filterMap (shown ∘ .syntaxError) ++
        error.toList.filterMap (shown ∘ .runtimeError) := by
  simp [eventsOf, syntaxErrorsOf, List.filterMap_map, h]

section

variable (source message : String) (error : Option RuntimeError)

theorem syntaxErrors_eventsOf :
    (eventsOf source message error).filterMap Event.syntaxError? = syntaxErrorsOf source := by
  have hsome : Event.syntaxError? ∘ Event.syntaxError = some := rfl
  have hnone : Event.syntaxError? ∘ Event.runtimeError = fun _ => none := rfl
  rw [filterMap_eventsOf fun _ => rfl, hsome, hnone]
  simp

theorem runtimeErrors_eventsOf :
    (eventsOf source message error).filterMap Event.runtimeError? = error.toList := by
  have hsome : Event.runtimeError? ∘ Event.runtimeError = some := rfl
  have hnone : Event.runtimeError? ∘ Event.syntaxError = fun _ => none := rfl
  rw [filterMap_eventsOf fun _ => rfl, hsome, hnone]
  simp

theorem diagnostics_eventsOf :
    (eventsOf source message error).filterMap Event.diagnostic? =
      (syntaxErrorsOf source).map (·.diagnostic) ++ error.toList.map (·.diagnostic) := by
  have hwrong : Event.diagnostic? ∘ Event.syntaxError = some ∘ (·.diagnostic) := rfl
  have hruntime : Event.diagnostic? ∘ Event.runtimeError = some ∘ (·.diagnostic) := rfl
  rw [filterMap_eventsOf fun _ => rfl, hwrong, hruntime, List.filterMap_eq_map,
    List.filterMap_eq_map]

theorem diagnostics_tellAll_eventsOf (verbose : Bool) (shown : DiagnosticLog) :
    ((DiagnosticLog.reporter verbose).tellAll shown (eventsOf source message error)).diagnostics =
      shown.diagnostics ++
        (ErrorLog.reporter.tellAll {} (eventsOf source message error)).diagnostics := by
  rw [DiagnosticLog.diagnostics_tellAll, diagnostics_eventsOf, ErrorLog.diagnostics,
    ErrorLog.syntaxErrors_tellAll, ErrorLog.runtimeErrors_tellAll, syntaxErrors_eventsOf,
    runtimeErrors_eventsOf]
  rfl

end

namespace Session

variable {ρ : Type} {reporter : Reporter ρ} {n : Nat} {source : String} {log log' : ρ}
  {status : Status} {before after : Session}

theorem runWith_of_faulty (h : ¬ WellFormed source) :
    before.runWith reporter n source log = some (.syntaxError,
      reporter.tellAll log (eventsOf source "Skipping execution due to syntax errors" none),
      before) := by
  have hok : ((scan source).isOk && (parse (scan source).tokens).isOk) = false := by
    simpa [Scan.isOk, Parsed.isOk, WellFormed] using h
  simp [runWith, hok, Reporter.tellAll, eventsOf, Reporter.tell, List.foldl_map]

theorem runWith_of_wellFormed (h : WellFormed source) :
    before.runWith reporter n source log =
      (interpret n (statementsOf source) before.state).map fun ending =>
        (if ending.error.isSome then .runtimeError else .completed,
          reporter.tellAll log (eventsOf source
            s!"Interpreting {(statementsOf source).length} statements" ending.error),
          ⟨ending.state⟩) := by
  simp only [runWith, Scan.isOk, Parsed.isOk, h.1, h.2, List.isEmpty_nil, Bool.and_self, if_true,
    List.foldl_nil]
  congr 1
  funext ending
  cases ending.error <;> simp [Reporter.tellAll, eventsOf, Reporter.tell, h.1, h.2, statementsOf]

theorem exists_run_of_faulty (h : ¬ WellFormed source) (session : Session) :
    ∃ report, (∀ n, session.run n source = some (report, session)) ∧
      report.diagnostics = (syntaxErrorsOf source).map (·.diagnostic) := by
  refine ⟨_, fun n => by rw [run, runWith_of_faulty h, Option.map_some], ?_⟩
  rw [Report.diagnostics, Report.syntaxErrors_tellAll, Report.runtimeError_tellAll,
    syntaxErrors_eventsOf, runtimeErrors_eventsOf]
  simp

/-! ## Sessions that were used before -/

/-- Any sources were run in it, one after another and with any reporters. -/
inductive Reached : Session → Prop
  | fresh {out} : Reached { state := { out } }
  | run {ρ : Type} {reporter : Reporter ρ} {n source log log' status before after} :
    Reached before → before.runWith reporter n source log = some (status, log', after) →
    Reached after

theorem grows_of_runWith
    (hrun : before.runWith reporter n source log = some (status, log', after)) :
    ∃ set, Environment.Grows set before.state.env after.state.env := by
  by_cases h : WellFormed source
  · rw [runWith_of_wellFormed h, Option.map_eq_some_iff] at hrun
    obtain ⟨ending, hending, heq⟩ := hrun
    cases heq
    -- Top-level declarations are the only statements that add names here.
    exact ⟨_, Stmt.grows_of_runAll (Stmt.exec_keeps n) (fun s => declared_of_mem_parse) hending⟩
  · rw [runWith_of_faulty h] at hrun
    cases hrun
    exact ⟨[], (Environment.Keeps.refl _).grows⟩

theorem Reached.depth {session : Session} (h : session.Reached) : session.state.env.depth = 1 := by
  induction h with
  | fresh => rfl
  | run _ hrun ih =>
    obtain ⟨_, hgrows⟩ := grows_of_runWith hrun
    rw [hgrows.depth, ih]

theorem exists_eventsOf (hrun : before.runWith reporter n source log = some (status, log', after)) :
    ∃ message error,
      (∀ (ρ : Type) (reporter : Reporter ρ) log, before.runWith reporter n source log =
        some (status, reporter.tellAll log (eventsOf source message error), after)) ∧
      (status = .syntaxError ↔ syntaxErrorsOf source ≠ []) ∧
      (status = .syntaxError → after = before) ∧ (status = .runtimeError ↔ error.isSome) ∧
      (syntaxErrorsOf source = [] →
        interpret n (statementsOf source) before.state = some ⟨error, after.state⟩) := by
  by_cases h : WellFormed source
  · rw [runWith_of_wellFormed h, Option.map_eq_some_iff] at hrun
    obtain ⟨⟨error, state⟩, hending, heq⟩ := hrun
    cases heq
    refine ⟨s!"Interpreting {(statementsOf source).length} statements", error, ?_, ?_, ?_, ?_,
      fun _ => hending⟩
    · intro ρ reporter log
      rw [runWith_of_wellFormed h, hending]
      rfl
    · rw [wellFormed_iff.1 h]
      cases error <;> simp
    · cases error <;> simp
    · cases error <;> simp
  · rw [runWith_of_faulty h] at hrun
    cases hrun
    have hfaulty := mt wellFormed_iff.2 h
    refine ⟨_, none, fun ρ reporter log => runWith_of_faulty h, ?_, fun _ => rfl, by simp,
      fun hnone => absurd hnone hfaulty⟩
    simpa using hfaulty

theorem run_eq_some_iff {report : Report} : before.run n source = some (report, after) ↔
    before.runWith Report.reporter n source {} = some (report.status, report, after) := by
  constructor
  · intro h
    obtain ⟨⟨status, report, after⟩, hrun, heq⟩ := Option.map_eq_some_iff.1 h
    cases heq
    obtain ⟨message, error, hall, hwrong, -, hruntime, -⟩ := exists_eventsOf hrun
    have hreport : Report.reporter.tellAll {} (eventsOf source message error) = report := by
      have hsame := (hall _ Report.reporter {}).symm.trans hrun
      cases hsame
      rfl
    have hstatus : report.status = status := by
      rw [Report.status, ← hreport, Report.syntaxErrors_tellAll, Report.runtimeError_tellAll,
        syntaxErrors_eventsOf, runtimeErrors_eventsOf]
      cases status <;> cases error <;> simp_all
    rw [hstatus]
    exact hrun
  · intro h
    rw [run, h]
    rfl

/-! ## What a run reports -/

/-- What is true of a run with the bound `n`, of what it tells, and of the session that it leaves. -/
structure Reported (before : Session) (n : Nat) (source : String) (status : Status)
    (events : List Event) (after : Session) : Prop where
  /-- Whoever is told is told the same. -/
  runs (ρ : Type) (reporter : Reporter ρ) (log : ρ) :
    before.runWith reporter n source log = some (status, reporter.tellAll log events, after)
  syntaxErrors : events.filterMap Event.syntaxError? = syntaxErrorsOf source
  syntaxError_iff : status = .syntaxError ↔ syntaxErrorsOf source ≠ []
  of_faulty : syntaxErrorsOf source ≠ [] →
    after = before ∧ events.filterMap Event.runtimeError? = []
  /-- The error that ends the statements is told, if there is one. -/
  interpreted : syntaxErrorsOf source = [] →
    interpret n (statementsOf source) before.state =
      some ⟨(events.filterMap Event.runtimeError?).head?, after.state⟩
  of_wellFormed : syntaxErrorsOf source = [] →
    (events.filterMap Event.runtimeError?).length ≤ 1 ∧
      (status = .runtimeError ↔ events.filterMap Event.runtimeError? ≠ []) ∧
      (status = .completed ↔ events.filterMap Event.runtimeError? = [])
  depth : after.state.env.depth = 1
  names : before.state.env.bindings.names <+: after.state.env.bindings.names
  diagnostics (verbose : Bool) (shown : DiagnosticLog) :
    ((DiagnosticLog.reporter verbose).tellAll shown events).diagnostics =
      shown.diagnostics ++ (ErrorLog.reporter.tellAll {} events).diagnostics

theorem reported_eventsOf {message : String} {error : Option RuntimeError}
    (hbefore : before.Reached)
    (hall : ∀ (ρ : Type) (reporter : Reporter ρ) log, before.runWith reporter n source log =
      some (status, reporter.tellAll log (eventsOf source message error), after))
    (hwrong : status = .syntaxError ↔ syntaxErrorsOf source ≠ [])
    (hsame : status = .syntaxError → after = before)
    (hruntime : status = .runtimeError ↔ error.isSome)
    (hinterpret : syntaxErrorsOf source = [] →
      interpret n (statementsOf source) before.state = some ⟨error, after.state⟩) :
    before.Reported n source status (eventsOf source message error) after := by
  have hrun := hall _ ErrorLog.reporter {}
  obtain ⟨_, hgrows⟩ := grows_of_runWith hrun
  constructor
  case runs => exact hall
  case syntaxErrors => exact syntaxErrors_eventsOf source message error
  case syntaxError_iff => exact hwrong
  case of_faulty =>
    intro h
    rw [runtimeErrors_eventsOf]
    rw [hwrong.2 h] at hruntime
    exact ⟨hsame (hwrong.2 h), by simpa using hruntime⟩
  case interpreted =>
    intro h
    rw [runtimeErrors_eventsOf, hinterpret h]
    simp
  case of_wellFormed =>
    intro h
    have hne : status ≠ .syntaxError := fun hstatus => hwrong.1 hstatus h
    rw [runtimeErrors_eventsOf]
    cases status <;> cases error <;> simp_all
  case depth => exact (hbefore.run hrun).depth
  case names => exact hgrows.prefix_bindings hbefore.depth
  case diagnostics => exact diagnostics_tellAll_eventsOf source message error

end Session

/-- After any runs, a source with syntax errors ends at once for every bound, and all its errors are
told. Any other ends when its statements do, and its run fails just if they do. -/
theorem runWith_reports_all_errors {before : Session} (hbefore : before.Reached)
    (source : String) :
    (syntaxErrorsOf source ≠ [] →
      ∃ events, ∀ n, before.Reported n source .syntaxError events before) ∧
    ∀ n, (∃ status events after, before.Reported n source status events after) ∨
      syntaxErrorsOf source = [] ∧ interpret n (statementsOf source) before.state = none ∧
        ∀ (ρ : Type) (reporter : Reporter ρ) log,
          before.runWith reporter n source log = none := by
  have hfaulty : syntaxErrorsOf source ≠ [] →
      ∃ events, ∀ n, before.Reported n source .syntaxError events before := by
    intro h
    have hall (n : Nat) (ρ : Type) (reporter : Reporter ρ) (log : ρ) :=
      @Session.runWith_of_faulty ρ reporter n source log before (mt wellFormed_iff.1 h)
    exact ⟨_, fun n => Session.reported_eventsOf hbefore (hall n) (by simpa using h)
      (fun _ => rfl) (by simp) fun hnone => absurd hnone h⟩
  refine ⟨hfaulty, fun n => ?_⟩
  by_cases hnone : syntaxErrorsOf source = []
  · have hrun := fun (ρ : Type) (reporter : Reporter ρ) log =>
      @Session.runWith_of_wellFormed ρ reporter n source log before (wellFormed_iff.2 hnone)
    cases hending : interpret n (statementsOf source) before.state with
    | none => exact .inr ⟨hnone, rfl, fun ρ reporter log => by rw [hrun, hending, Option.map_none]⟩
    | some ending =>
      have hlogged := hrun _ ErrorLog.reporter {}
      rw [hending, Option.map_some] at hlogged
      obtain ⟨message, error, hall, hwrong, hsame, hruntime, hinterpret⟩ :=
        Session.exists_eventsOf hlogged
      exact .inl ⟨_, _, _,
        Session.reported_eventsOf hbefore hall hwrong hsame hruntime hinterpret⟩
  · obtain ⟨events, hreported⟩ := hfaulty hnone
    exact .inl ⟨_, events, before, hreported n⟩

/-- A source with two errors in its syntax and one in its characters, and then one that fails inside
a block. -/
theorem runWith_reports_all_errors_in_session : ∃ (before after : Session) (log log' : ErrorLog),
    before.Reached ∧ before.state.env.bindings.names = ["a"] ∧
    (∀ n, before.runWith ErrorLog.reporter n "scream @;\nscream 2" {} =
      some (.syntaxError, log, before)) ∧
    log.syntaxErrors.length = 3 ∧ log.runtimeErrors = [] ∧
    before.runWith ErrorLog.reporter 2 "\x7b var b; missing; \x7d" {} =
      some (.runtimeError, log', after) ∧
    log'.runtimeErrors.length = 1 ∧ after.state.env.depth = 1 ∧
    ["a"] <+: after.state.env.bindings.names := by
  have hwell : WellFormed "var a;" := by
    unfold WellFormed
    decide +kernel
  have hthree : (syntaxErrorsOf "scream @;\nscream 2").length = 3 := by decide +kernel
  have hnone : syntaxErrorsOf "\x7b var b; missing; \x7d" = [] := by
    rw [← wellFormed_iff]
    unfold WellFormed
    decide +kernel
  have hruns : (interpret 1 (statementsOf "var a;") {}).any fun first =>
      first.state.env.bindings.names = ["a"] &&
        (interpret 2 (statementsOf "\x7b var b; missing; \x7d") first.state).any
          (·.error.isSome) := by
    decide +kernel
  obtain ⟨first, hfirst, hboth⟩ := (Option.any_eq_true _ _).1 hruns
  rw [Bool.and_eq_true, decide_eq_true_eq, Option.any_eq_true] at hboth
  obtain ⟨hbound, ending, hending, herror⟩ := hboth
  have hrun := @Session.runWith_of_wellFormed _ ErrorLog.reporter 1 _ {} {} hwell
  rw [hfirst] at hrun
  have hreached := Session.Reached.fresh.run hrun
  have hwrong : syntaxErrorsOf "scream @;\nscream 2" ≠ [] := by
    rw [← List.length_pos_iff, hthree]
    decide
  obtain ⟨told, hfaulty⟩ := (runWith_reports_all_errors hreached _).1 hwrong
  have hfaultyRun := (hfaulty 0).runs _ ErrorLog.reporter {}
  obtain ⟨status, events, after, hreported⟩ | ⟨-, hnever, -⟩ :=
    (runWith_reports_all_errors (hreached.run hfaultyRun) "\x7b var b; missing; \x7d").2 2
  · obtain ⟨hlength, hstatus, -⟩ := hreported.of_wellFormed hnone
    have hne : events.filterMap Event.runtimeError? ≠ [] := by
      rw [← Option.some.inj ((hreported.interpreted hnone).symm.trans hending)] at herror
      exact List.ne_nil_of_mem (List.mem_of_mem_head? (Option.get_mem herror))
    obtain rfl := hstatus.2 hne
    refine ⟨_, after, _, _, hreached, hbound, fun n => (hfaulty n).runs _ ErrorLog.reporter {}, ?_,
      ?_, hreported.runs _ ErrorLog.reporter {}, ?_, hreported.depth, hbound ▸ hreported.names⟩
    · rw [ErrorLog.syntaxErrors_tellAll, (hfaulty 0).syntaxErrors]
      exact hthree
    · rw [ErrorLog.runtimeErrors_tellAll, ((hfaulty 0).of_faulty hwrong).2]
      rfl
    · rw [ErrorLog.runtimeErrors_tellAll]
      have hpos := List.length_pos_iff.2 hne
      simpa using Nat.le_antisymm hlength hpos
  · rw [hnever] at hending
    cases hending

end Treewalk
