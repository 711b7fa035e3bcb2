import Treewalk.Cli.Program
import Treewalk.Proofs.Session.Reports

/-!
# Showing a script and running it

What a script does on the two streams, when progress is not asked for. A script with syntax errors
is not run, and showing its statements finds the same errors as running it does. A script without
them is run as the statements that are shown.
-/

namespace Treewalk.Cli

/-! ## The two streams -/

namespace Console

@[simp] theorem none_append (a : Console) : none ++ a = a := by
  obtain ⟨out, err⟩ := a
  exact congrArg₂ Console.mk String.empty_append String.empty_append

@[simp] theorem append_none (a : Console) : a ++ none = a := by
  obtain ⟨out, err⟩ := a
  exact congrArg₂ Console.mk String.append_empty String.append_empty

theorem append_assoc (a b c : Console) : a ++ b ++ c = a ++ (b ++ c) :=
  congrArg₂ Console.mk (String.append_assoc ..) (String.append_assoc ..)

theorem output_append_error (out err : String) : output out ++ error err = ⟨out, err⟩ :=
  congrArg₂ Console.mk String.append_empty String.empty_append

end Console

/-- Diagnostics against their source, as they are shown. -/
def rendered (config : Config) (source file : String) (ds : List Diagnostic) : String :=
  { text := source.toList, file, color := config.color : View }.renderAll ds

/-- How the statements of a source that can be run end, on the streams and in the exit code. -/
def Exit.ofEnding (config : Config) (source file : String) (ending : Ending) : Exit where
  console := ⟨ending.state.out.contents,
    rendered config source file (ending.error.toList.map (·.diagnostic))⟩
  code := (if ending.error.isSome then Status.runtimeError else .completed).exitCode

/-- How showing a stage of a source ends. -/
def Exit.ofDump (config : Config) (source file : String) (dump : Dump) : Exit where
  console := ⟨View.unlines dump.lines,
    rendered config source file (dump.errors.map (·.diagnostic))⟩
  code := if dump.errors = [] then 0 else 65

section

variable {config : Config} (hquiet : config.verbose = false)
include hquiet

theorem logAll_of_quiet (messages : List String) : logAll config messages = .none := by
  rw [logAll, hquiet]
  rfl

/-! ## Running -/

theorem runSource_of_faulty {source : String} (h : ¬ WellFormed source) (n : Nat) (file : String)
    (session : Session) :
    runSource n config file source session = some (.syntaxError,
      ⟨"", rendered config source file ((syntaxErrorsOf source).map (·.diagnostic))⟩,
      { state := { session.state with out := {} } }) := by
  simp only [runSource, Session.runWith_of_faulty h, Option.map_some,
    DiagnosticLog.diagnostics_tellAll, diagnostics_eventsOf, logAll_of_quiet hquiet]
  simp [showDiagnostics, rendered, Console.output_append_error, Sink.contents, String.join]

theorem runSource_of_wellFormed {source : String} (h : WellFormed source) (n : Nat) (file : String)
    (session : Session) :
    runSource n config file source session =
      (interpret n (statementsOf source) { session.state with out := {} }).map fun ending =>
        (if ending.error.isSome then .runtimeError else .completed,
          (Exit.ofEnding config source file ending).console, ⟨ending.state⟩) := by
  simp only [runSource, Session.runWith_of_wellFormed h, Option.map_map, Function.comp_def,
    DiagnosticLog.diagnostics_tellAll, diagnostics_eventsOf, logAll_of_quiet hquiet]
  simp [showDiagnostics, Console.output_append_error, wellFormed_iff.1 h, Exit.ofEnding, rendered]

/-! ## Scripts -/

section

variable {path source : String} {content : Except ReadError ByteArray}
  (hread : content.bind decode = .ok source)
include hread

theorem runScript_of_read (n : Nat) :
    runScript n config path content = scriptExit n config path source := by
  simp only [runScript, hread, log, logAll_of_quiet hquiet, Console.none_append]
  cases scriptExit n config path source <;> rfl

theorem runScript_of_dump (stage : DumpStage) (n : Nat) :
    runScript n { config with dump := some stage } path content =
      some (.ofDump config source path (.of stage config.json source)) := by
  rw [@runScript_of_read { config with dump := some stage } hquiet path _ _ hread]
  simp only [scriptExit, dumpSource, log, List.isEmpty_iff,
    @logAll_of_quiet { config with dump := some stage } hquiet, Console.append_none]
  refine congrArg some (congrArg₂ Exit.mk (Console.output_append_error _ _) ?_)
  split <;> rfl

theorem runScript_of_faulty (h : ¬ WellFormed source) (n : Nat) :
    runScript n { config with dump := none } path content = some
      ⟨⟨"", rendered config source path ((syntaxErrorsOf source).map (·.diagnostic))⟩, 65⟩ := by
  rw [@runScript_of_read { config with dump := none } hquiet path _ _ hread]
  simp only [scriptExit, @runSource_of_faulty { config with dump := none } hquiet _ h,
    Option.map_some, log, @logAll_of_quiet { config with dump := none } hquiet, Console.append_none]
  rfl

theorem runScript_of_wellFormed (h : WellFormed source) (n : Nat) :
    runScript n { config with dump := none } path content =
      (interpret n (statementsOf source) {}).map (Exit.ofEnding config source path) := by
  rw [@runScript_of_read { config with dump := none } hquiet path _ _ hread]
  simp only [scriptExit, @runSource_of_wellFormed { config with dump := none } hquiet _ h,
    Option.map_map, log, @logAll_of_quiet { config with dump := none } hquiet, Console.append_none]
  rfl

end

end

theorem code_ofEnding_ne (config : Config) (source file : String) (ending : Ending) :
    (Exit.ofEnding config source file ending).code ≠ 65 := by
  obtain ⟨_ | error, state⟩ := ending
  · exact nofun
  · exact nofun

theorem code_ofDump_iff {config : Config} {source file : String} {dump : Dump} :
    (Exit.ofDump config source file dump).code = 65 ↔ dump.errors ≠ [] := by
  by_cases h : dump.errors = [] <;> simp [Exit.ofDump, h]

theorem errors_eq_nil_of_code_ne {config : Config} {source file : String} {dump : Dump}
    (h : (Exit.ofDump config source file dump).code ≠ 65) : dump.errors = [] :=
  Classical.not_not.1 (mt code_ofDump_iff.2 h)

/-- Showing the statements of a script fails just if running it ends with code 65, and both say the
same then. Else the statements that are shown are those that are run. -/
theorem dump_and_run_agree {config : Config} (hquiet : config.verbose = false) (path : String)
    {content : Except ReadError ByteArray} {source : String}
    (hread : content.bind decode = .ok source) :
    ∃ tree tokens,
      (∀ n, runScript n { config with dump := some .tree } path content = some tree) ∧
      (∀ n, runScript n { config with dump := some .tokens } path content = some tokens) ∧
      (tree.code = 65 ↔ ∃ n run,
        runScript n { config with dump := none } path content = some run ∧ run.code = 65) ∧
      (tree.code = 65 → ∀ n, ∃ run,
        runScript n { config with dump := none } path content = some run ∧ run.code = 65 ∧
        run.console.err = tree.console.err ∧ run.console.out = "") ∧
      (tree.code ≠ 65 → tree.code = 0 ∧ tree.console.err = "" ∧
        tree.console.out = View.unlines ((statementsOf source).map Stmt.render) ∧
        ∀ n, runScript n { config with dump := none } path content =
          (interpret n (statementsOf source) {}).map (Exit.ofEnding config source path)) ∧
      (tokens.code = 65 ↔ (scan source).errors ≠ []) ∧ (tokens.code ≠ 65 → tokens.code = 0) ∧
      tokens.console.err =
        rendered config source path ((scan source).errors.map (·.diagnostic)) := by
  refine ⟨_, _, runScript_of_dump hquiet hread .tree, runScript_of_dump hquiet hread .tokens,
    ?_, ?_, ?_, code_ofDump_iff, ?_, rfl⟩
  · rw [code_ofDump_iff]
    constructor
    · intro herrors
      have hfaulty : ¬ WellFormed source := mt wellFormed_iff.1 herrors
      exact ⟨0, _, runScript_of_faulty hquiet hread hfaulty 0, rfl⟩
    · rintro ⟨n, run, hrun, hcode⟩ hnone
      rw [runScript_of_wellFormed hquiet hread (wellFormed_iff.2 hnone)] at hrun
      obtain ⟨ending, -, rfl⟩ := Option.map_eq_some_iff.1 hrun
      exact code_ofEnding_ne _ _ _ ending hcode
  · intro hcode n
    have hfaulty : ¬ WellFormed source := mt wellFormed_iff.1 (code_ofDump_iff.1 hcode)
    exact ⟨_, runScript_of_faulty hquiet hread hfaulty n, rfl, rfl, rfl⟩
  · intro hcode
    have hnone : syntaxErrorsOf source = [] := errors_eq_nil_of_code_ne hcode
    refine ⟨if_pos hnone, ?_, rfl, fun n => ?_⟩
    · change rendered config source path ((syntaxErrorsOf source).map _) = ""
      rw [hnone]
      rfl
    · exact runScript_of_wellFormed hquiet hread (wellFormed_iff.2 hnone) n
  · intro hcode
    exact if_pos (errors_eq_nil_of_code_ne hcode)

/-- A script that is cut short: its tokens can be shown without an error, its statements not. -/
theorem dump_and_run_agree_cut_short :
    let config : Config := { color := false, verbose := false, dump := none, json := false }
    let content : Except ReadError ByteArray := .ok "scream 1; 2 +".toUTF8
    ∃ tree tokens run,
      runScript 0 { config with dump := some .tree } "s" content = some tree ∧
      runScript 0 { config with dump := some .tokens } "s" content = some tokens ∧
      runScript 0 config "s" content = some run ∧ tree.code = 65 ∧ run.code = 65 ∧
      run.console.err = tree.console.err ∧ run.console.out = "" ∧ tokens.code = 0 := by
  intro config content
  have hread : content.bind decode = .ok "scream 1; 2 +" := by decide +kernel
  obtain ⟨tree, tokens, htree, htokens, -, hfaulty, -, htokensCode, htokensZero, -⟩ :=
    @dump_and_run_agree config rfl "s" _ _ hread
  have hscan : (scan "scream 1; 2 +").errors = [] := by decide +kernel
  have hcodes : (runScript 0 { config with dump := some .tree } "s" content).map (·.code) =
      some 65 := by decide +kernel
  have hcode : tree.code = 65 := by rwa [htree, Option.map_some, Option.some.injEq] at hcodes
  obtain ⟨run, hrun, hrunCode, herr, hout⟩ := hfaulty hcode 0
  exact ⟨tree, tokens, run, htree 0, htokens 0, hrun, hcode, hrunCode, herr, hout,
    htokensZero fun h => htokensCode.1 h hscan⟩

end Treewalk.Cli
