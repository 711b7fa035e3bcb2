import Treewalk.Proofs.Eval.Running
import Treewalk.Proofs.Lexeme.Joining
import Treewalk.Proofs.Syntax.Statements
import Treewalk.Session

/-!
# A source in pieces

Sources that a session runs one after another do what they would do joined by newlines in one run.
Only an error is reported further down.
-/

namespace Treewalk

open Grammar (strict)

/-! ## Joined sources -/

/-- Without an error in its characters or in its syntax. -/
def WellFormed (source : String) : Prop :=
  (scan source).errors = [] ∧ (parse (scan source).tokens).errors = []

def statementsOf (source : String) : List Stmt := (parse (scan source).tokens).statements

theorem Token.moves_moved (d : Shift) : Moves (moved d) where
  kind _ := rfl
  lexeme _ := rfl
  literal _ := rfl

theorem WellFormed.derives {source : String} (h : WellFormed source) :
    ∃ bad, Grammar.Declarations strict (words source.toList) (statementsOf source) bad := by
  obtain ⟨body, bad, hd⟩ := parse_errors_eq_nil_iff.1 h.2
  have hbody := (parse_of_derives rfl hd).1
  rw [scan, beforeEnd_ofText] at hd
  exact ⟨bad, by rw [statementsOf, hbody]; exact hd⟩

theorem WellFormed.join {s t : String} (hs : WellFormed s) (ht : WellFormed t) :
    WellFormed (s ++ "\n" ++ t) ∧ statementsOf (s ++ "\n" ++ t) =
      statementsOf s ++ (statementsOf t).map (·.mapTokens (.moved (.past s.toList))) := by
  have htext : (s ++ "\n" ++ t).toList = s.toList ++ '\n' :: t.toList := by simp
  obtain ⟨_, hds⟩ := hs.derives
  obtain ⟨_, hdt⟩ := ht.derives
  have hclosed := closed_of_errors_eq_nil hs.1
  have hd := hds.append (hdt.mapTokens (Token.moves_moved (.past s.toList)))
  rw [← words_join hclosed, ← htext, ← beforeEnd_ofText] at hd
  refine ⟨⟨?_, parse_errors_eq_nil_iff.2 ⟨_, _, hd⟩⟩, (parse_of_derives rfl hd).1⟩
  have hs : (Scan.ofText s.toList).errors = [] := hs.1
  have ht : (Scan.ofText t.toList).errors = [] := ht.1
  rw [scan, htext, errors_join hclosed, hs, ht]
  rfl

/-! ## One run -/

namespace Session

/-- Every bound that is high enough gives this report and this session. -/
def Runs (source : String) (before : Session) (report : Report) (after : Session) : Prop :=
  ∃ bound, ∀ n, bound ≤ n → run n source before = some (report, after)

theorem exists_run_eq {source : String} (h : WellFormed source) : ∃ trace, ∀ n before,
    run n source before = (interpret n (statementsOf source) before.state).map fun ending =>
      (⟨[], ending.error, trace⟩, ⟨ending.state⟩) := by
  simp only [run, runWith, Scan.isOk, Parsed.isOk, h.1, h.2, List.isEmpty_nil, Bool.and_self,
    if_true, List.foldl_nil, Option.map_map]
  refine ⟨[s!"Scanning {source.utf8ByteSize} bytes",
    s!"Parsing {(scan source).tokens.length} tokens",
    s!"Interpreting {(statementsOf source).length} statements"], fun n before => ?_⟩
  congr 1
  funext ⟨error, state⟩
  cases error <;> rfl

theorem Runs.exists_interpret {source : String} {before after : Session} {report : Report}
    (h : Runs source before report after) (hsource : WellFormed source) :
    ∃ bound, interpret bound (statementsOf source) before.state =
      some ⟨report.runtimeError, after.state⟩ ∧ report.syntaxErrors = [] := by
  obtain ⟨bound, h⟩ := h
  obtain ⟨trace, hrun⟩ := exists_run_eq hsource
  have hbound := h bound (Nat.le_refl bound)
  rw [hrun] at hbound
  obtain ⟨ending, hending, heq⟩ := Option.map_eq_some_iff.1 hbound
  cases heq
  exact ⟨bound, hending, rfl⟩

theorem exists_runs {source : String} (hsource : WellFormed source) {before : Session}
    {bound : Nat} {error : Option RuntimeError} {state : State}
    (h : interpret bound (statementsOf source) before.state = some ⟨error, state⟩) :
    ∃ report, Runs source before report ⟨state⟩ ∧ report.syntaxErrors = [] ∧
      report.runtimeError = error := by
  obtain ⟨trace, hrun⟩ := exists_run_eq hsource
  refine ⟨⟨[], error, trace⟩, ⟨bound, fun n hn => ?_⟩, rfl, rfl⟩
  rw [hrun, interpret_refines hn h]
  rfl

/-! ## Output -/

/-- What was written between two states of a session. -/
def wrote (before after : Session) : String :=
  let n := after.state.out.taken.length - before.state.out.taken.length
  String.join (after.state.out.taken.take n).reverse

theorem wrote_eq {before after : Session} {new : List String}
    (h : new ++ before.state.out.taken = after.state.out.taken) :
    wrote before after = String.join new.reverse := by
  rw [wrote, ← h, List.length_append, Nat.add_sub_cancel, List.take_left]

theorem wrote_trans {a b c : Session} (hab : a.state.out.taken <:+ b.state.out.taken)
    (hbc : b.state.out.taken <:+ c.state.out.taken) : wrote a c = wrote a b ++ wrote b c := by
  obtain ⟨first, hfirst⟩ := hab
  obtain ⟨second, hsecond⟩ := hbc
  have hall : (second ++ first) ++ a.state.out.taken = c.state.out.taken := by
    rw [← hsecond, ← hfirst, List.append_assoc]
  rw [wrote_eq hfirst, wrote_eq hsecond, wrote_eq hall, List.reverse_append, String.join_append]

theorem Runs.adds {source : String} {before after : Session} {report : Report}
    (h : Runs source before report after) (hsource : WellFormed source) :
    before.state.out.taken <:+ after.state.out.taken := by
  obtain ⟨bound, hinterpret, -⟩ := h.exists_interpret hsource
  exact runAll_adds (Stmt.exec_adds bound) hinterpret

/-! ## One piece after another -/

/-- `RunsInOrder sources before outputs report after`: each source runs in the session that the one
before it left, and all but the last complete. The report is the last one's. -/
inductive RunsInOrder : List String → Session → List String → Report → Session → Prop
  | last {source before report after} : Runs source before report after →
    RunsInOrder [source] before [wrote before after] report after
  | next {source sources before first mid outputs report after} : Runs source before first mid →
    first.status = .completed → RunsInOrder sources mid outputs report after →
    RunsInOrder (source :: sources) before (wrote before mid :: outputs) report after

theorem RunsInOrder.ne_nil {sources outputs : List String} {before after : Session}
    {report : Report} (h : RunsInOrder sources before outputs report after) : sources ≠ [] := by
  cases h <;> simp

theorem runtimeError_of_completed {report : Report} (h : report.status = .completed) :
    report.runtimeError = none := by
  unfold Report.status at h
  split at h
  · cases h
  · split at h
    · cases h
    · exact Option.not_isSome_iff_eq_none.1 ‹_›

theorem status_eq {r r' : Report} (h : r.syntaxErrors = r'.syntaxErrors)
    (herror : r.runtimeError.isSome = r'.runtimeError.isSome) : r.status = r'.status := by
  rw [Report.status, Report.status, h, herror]

theorem Runs.join {s t : String} {before mid after : Session} {first report : Report}
    (hs : WellFormed s) (ht : WellFormed t) (h : Runs s before first mid)
    (hfirst : first.status = .completed) (h' : Runs t mid report after) :
    ∃ joined, Runs (s ++ "\n" ++ t) before joined after ∧ joined.status = report.status ∧
      joined.runtimeError = report.runtimeError.map (·.mapToken (.moved (.past s.toList))) := by
  obtain ⟨hst, hstatements⟩ := hs.join ht
  obtain ⟨n, hn, -⟩ := h.exists_interpret hs
  obtain ⟨m, hm, hsyntax⟩ := h'.exists_interpret ht
  rw [runtimeError_of_completed hfirst] at hn
  have hn := interpret_refines (Nat.le_max_left n m) hn
  have hm := interpret_refines (Nat.le_max_right n m) hm
  have hboth : interpret (max n m) (statementsOf (s ++ "\n" ++ t)) before.state =
      some (Ending.mapToken (.moved (.past s.toList)) ⟨report.runtimeError, after.state⟩) := by
    unfold interpret at hn hm ⊢
    rw [hstatements, runAll_append hn,
      runAll_mapTokens (Stmt.exec_mapTokens (Token.moves_moved _) _), hm, Option.map_some]
  obtain ⟨joined, hjoined, hnone, herror⟩ := exists_runs hst hboth
  refine ⟨joined, hjoined, status_eq (hnone.trans hsyntax.symm) ?_, herror⟩
  rw [herror, Option.isSome_map]

end Session

/-- How far the last of the sources is moved when they are joined by newlines. -/
def Shift.toLast : List String → Shift
  | s :: t :: rest => (past s.toList).add (toLast (t :: rest))
  | _ => zero

theorem RuntimeError.mapToken_add (a b : Shift) (e : RuntimeError) :
    (e.mapToken (.moved b)).mapToken (.moved a) = e.mapToken (.moved (a.add b)) := by
  simp [mapToken, Token.moved, Shift.add, Nat.add_assoc, Nat.add_comm a.lines, Nat.add_comm a.bytes]

theorem wellFormed_intercalate {sources : List String} (hne : sources ≠ [])
    (h : ∀ source ∈ sources, WellFormed source) : WellFormed ("\n".intercalate sources) := by
  induction sources with
  | nil => exact absurd rfl hne
  | cons s rest ih =>
    cases rest with
    | nil => rw [String.intercalate_singleton]; exact h s List.mem_cons_self
    | cons t rest =>
      rw [String.intercalate_cons_cons]
      have hrest := ih (by simp) fun source hsource => h source (List.mem_cons_of_mem s hsource)
      exact ((h s List.mem_cons_self).join hrest).1

/-- Sources that run one after another run the same when they are joined by newlines, but for the
place of an error. -/
theorem runs_joined_sources {sources outputs : List String} {before after : Session}
    {report : Report} (hsources : ∀ source ∈ sources, WellFormed source)
    (h : Session.RunsInOrder sources before outputs report after) :
    ∃ joined, Session.Runs ("\n".intercalate sources) before joined after ∧
      joined.status = report.status ∧
      joined.runtimeError = report.runtimeError.map (·.mapToken (.moved (.toLast sources))) ∧
      Session.wrote before after = String.join outputs := by
  induction h with
  | @last source before report after hrun =>
    refine ⟨report, ?_, rfl, ?_, by simp⟩
    · rwa [String.intercalate_singleton]
    · cases report.runtimeError <;> rfl
  | @next source sources before first mid outputs report after hrun hfirst hrest ih =>
    have hsource := hsources source List.mem_cons_self
    have hsources : ∀ source ∈ sources, WellFormed source := fun source hmem =>
      hsources source (List.mem_cons_of_mem _ hmem)
    have hwell := wellFormed_intercalate hrest.ne_nil hsources
    obtain ⟨joined, hjoined, hstatus, herror, hwrote⟩ := ih hsources
    obtain ⟨all, hall, hallStatus, hallError⟩ := hrun.join hsource hwell hfirst hjoined
    obtain ⟨next, rest, rfl⟩ := List.exists_cons_of_ne_nil hrest.ne_nil
    refine ⟨all, ?_, hallStatus.trans hstatus, ?_, ?_⟩
    · rw [String.intercalate_cons_cons]; exact hall
    · rw [hallError, herror, Option.map_map]
      congr 1
      funext e
      exact e.mapToken_add _ _
    · rw [Session.wrote_trans (hrun.adds hsource) (hjoined.adds hwell), hwrote, String.join_cons]

theorem runs_joined_sources_undefined : ∃ report after,
    Session.RunsInOrder ["var a;", "scream a;", "b;"] {} ["", "nil\n", ""] report after ∧
    ∃ joined, Session.Runs "var a;\nscream a;\nb;" {} joined after ∧
      joined.status = .runtimeError ∧ joined.runtimeError.map (·.line) = some 3 := by
  have hwell : ∀ source ∈ ["var a;", "scream a;", "b;"], WellFormed source := by
    simp only [List.forall_mem_cons, WellFormed, scan, tokens_ofText]
    refine ⟨⟨errors_ofText_eq_nil ?_, ?_⟩, ⟨errors_ofText_eq_nil ?_, ?_⟩,
      ⟨errors_ofText_eq_nil ?_, ?_⟩, by simp⟩ <;> cbv
  let afterFirst : State := { env := ⟨[], [("a", .nil)]⟩ }
  let afterSecond : State := { afterFirst with out := { taken := ["\n", "nil"] } }
  let error : RuntimeError := ⟨⟨.identifier, "b", none, 1, ⟨0, 1⟩⟩, .undefinedVariable "b"⟩
  have hfirst : interpret 1 (statementsOf "var a;") {} = some ⟨none, afterFirst⟩ := by
    rw [statementsOf, scan, tokens_ofText]
    cbv
  have hsecond : interpret 1 (statementsOf "scream a;") afterFirst = some ⟨none, afterSecond⟩ := by
    rw [statementsOf, scan, tokens_ofText]
    cbv
  have hthird : interpret 1 (statementsOf "b;") afterSecond = some ⟨some error, afterSecond⟩ := by
    rw [statementsOf, scan, tokens_ofText]
    cbv
  obtain ⟨first, hrun, hnone, hok⟩ := Session.exists_runs (hwell _ (by simp)) hfirst
  obtain ⟨second, hrun', hnone', hok'⟩ := Session.exists_runs (hwell _ (by simp)) hsecond
  obtain ⟨third, hrun'', hnone'', herror⟩ := Session.exists_runs (hwell _ (by simp)) hthird
  have hinOrder : Session.RunsInOrder ["var a;", "scream a;", "b;"] {} ["", "nil\n", ""] third
      ⟨afterSecond⟩ :=
    .next hrun (by simp [Report.status, hnone, hok])
      (.next hrun' (by simp [Report.status, hnone', hok']) (.last hrun''))
  obtain ⟨joined, hjoined, hstatus, hjoinedError, -⟩ := runs_joined_sources hwell hinOrder
  refine ⟨third, _, hinOrder, joined, hjoined, ?_, ?_⟩
  · rw [hstatus]
    simp [Report.status, hnone'', herror]
  · rw [hjoinedError, herror]
    rfl

end Treewalk
