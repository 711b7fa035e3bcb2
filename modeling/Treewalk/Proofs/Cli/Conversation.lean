import Treewalk.Proofs.Cli.Scripts
import Treewalk.Proofs.Eval.Output

/-!
# Conversations at the prompt

The prompt runs its lines one after another in one session. What a line shows depends on the lines
before it that are run, and on no others. The conversation ends at the first line that is no text or
says to leave, and nothing after that is looked at.
-/

namespace Treewalk

namespace Session

/-- Sources that are run one after another, however each of them ends. -/
inductive RunsEach : List String → Session → Session → Prop
  | none {session} : RunsEach [] session session
  | next {source sources before report mid after} : Runs source before report mid →
    RunsEach sources mid after → RunsEach (source :: sources) before after

end Session

namespace Cli

open Session (Runs RunsEach wrote)

/-! ## Lines -/

/-- Each line ends at its newline, which only the last may lack. -/
inductive Lines : List UInt8 → List (List UInt8) → Prop
  | none : Lines [] []
  | last {line} : line ≠ [] → 10 ∉ line → Lines line [line]
  | next {line rest lines} : 10 ∉ line → Lines rest lines →
    Lines (line ++ 10 :: rest) ((line ++ [10]) :: lines)

theorem splitLines_last {line : List UInt8} (hne : line ≠ []) (h : 10 ∉ line) :
    splitLines line = [line] := by
  induction line with
  | nil => exact absurd rfl hne
  | cons b line ih =>
    obtain ⟨hb, hline⟩ := not_or.1 (mt List.mem_cons.2 h)
    rw [splitLines, if_neg (Ne.symm hb)]
    cases line with
    | nil => rfl
    | cons c line => rw [ih (List.cons_ne_nil c line) hline]

theorem splitLines_next {line : List UInt8} (h : 10 ∉ line) (rest : List UInt8) :
    splitLines (line ++ 10 :: rest) = (line ++ [10]) :: splitLines rest := by
  induction line with
  | nil => rfl
  | cons b line ih =>
    obtain ⟨hb, hline⟩ := not_or.1 (mt List.mem_cons.2 h)
    rw [List.cons_append, splitLines, if_neg (Ne.symm hb), ih hline]
    rfl

theorem lines_iff {bytes : List UInt8} {lines : List (List UInt8)} :
    Lines bytes lines ↔ splitLines bytes = lines := by
  constructor
  · intro h
    induction h with
    | none => rfl
    | last hne hline => exact splitLines_last hne hline
    | next hline _ ih => rw [splitLines_next hline, ih]
  · rintro rfl
    induction bytes with
    | nil => exact .none
    | cons b bytes ih =>
      rw [splitLines]
      split
      · next hb => exact hb ▸ @Lines.next [] _ _ List.not_mem_nil ih
      · next hb =>
        -- The character joins the line that comes first, or is a line of its own at the end.
        have hmem {line : List UInt8} (hline : 10 ∉ line) : 10 ∉ b :: line := fun h =>
          (List.mem_cons.1 h).elim (Ne.symm hb) hline
        generalize splitLines bytes = lines at ih
        cases ih with
        | none => exact .last (List.cons_ne_nil b []) (hmem List.not_mem_nil)
        | last _ hline => exact .last (List.cons_ne_nil b _) (hmem hline)
        | next hline hrest => exact .next (hmem hline) hrest

/-! ## What is heard -/

/-- The text of a line, if it is one. -/
def text? (line : List UInt8) : Option String := String.fromUTF8? ⟨line.toArray⟩

/-- What a line says, without white space around it. -/
def said (line : String) : String := .ofList (Text.trim line.toList)

/-- A line that does not end the conversation. -/
def isHeard (line : List UInt8) : Bool :=
  (text? line).any fun text => said text ≠ "exit" && said text ≠ "quit"

/-- The lines before the first that ends the conversation. -/
def heard (lines : List (List UInt8)) : List String := (lines.takeWhile isHeard).filterMap text?

/-- A line that is run. -/
def isSource (line : String) : Bool := said line ≠ "" && said line ≠ ":env"

/-- What is said about the first line that is not heard, if it is no text. -/
def readComplaint (config : Config) (lines : List (List UInt8)) : String :=
  if (lines.find? (!isHeard ·)).any fun line => (text? line).isNone then
    (complain config "Error reading input: stream did not contain valid UTF-8").err
  else ""

theorem exists_text_of_isHeard {line : List UInt8} (h : isHeard line) :
    ∃ text, text? line = some text ∧ said text ≠ "exit" ∧ said text ≠ "quit" := by
  obtain ⟨text, htext, hsaid⟩ := (Option.any_eq_true _ _).1 h
  rw [Bool.and_eq_true, decide_eq_true_iff, decide_eq_true_iff] at hsaid
  exact ⟨text, htext, hsaid⟩

theorem heard_cons {line : List UInt8} (h : isHeard line) {text : String}
    (htext : text? line = some text) (lines : List (List UInt8)) :
    heard (line :: lines) = text :: heard lines := by
  rw [heard, List.takeWhile_cons_of_pos h, List.filterMap_cons_some htext, heard]

theorem heard_of_forall {lines : List (List UInt8)} (h : ∀ line ∈ lines, isHeard line) :
    heard lines = lines.filterMap text? := by
  rw [heard, List.takeWhile_eq_self_iff.2 h]

theorem heard_append {first : List (List UInt8)} (h : ∀ line ∈ first, isHeard line)
    (rest : List (List UInt8)) : heard (first ++ rest) = heard first ++ heard rest := by
  rw [heard, List.takeWhile_append_of_pos h, List.filterMap_append, heard_of_forall h, heard]

theorem readComplaint_append (config : Config) {first : List (List UInt8)}
    (h : ∀ line ∈ first, isHeard line) (rest : List (List UInt8)) :
    readComplaint config (first ++ rest) = readComplaint config rest := by
  have hnone : first.find? (!isHeard ·) = none :=
    List.find?_eq_none.2 fun line hline => by simp [h line hline]
  rw [readComplaint, List.find?_append, hnone, Option.none_or, readComplaint]

/-! ## Exchanges -/

/-- What a line that is heard shows in a session, and the session after it. -/
inductive Answers (config : Config) : String → Session → Console → Session → Prop
  | blank {line session} : said line = "" → Answers config line session ⟨"", ""⟩ session
  | list {line session} : said line = ":env" → Answers config line session
    ⟨String.join (session.state.env.bindings.map fun (name, v) =>
      name ++ " = " ++ v.display ++ "\n"), ""⟩ session
  | run {line before report after} : isSource line → Runs line before report after →
    Answers config line before
      ⟨wrote before after, rendered config line "<repl>" report.diagnostics⟩ after

/-- Line after line, each with what it shows. -/
inductive Converses (config : Config) : List String → Session → List Console → Session → Prop
  | done {session} : Converses config [] session [] session
  | next {line lines before console mid consoles after} : Answers config line before console mid →
    Converses config lines mid consoles after →
    Converses config (line :: lines) before (console :: consoles) after

theorem answers_of_idle {config : Config} {line : String} (h : ¬ isSource line)
    (session : Session) :
    ∃ console, Answers config line session console session ∧ console.err = "" := by
  by_cases hblank : said line = ""
  · exact ⟨_, .blank hblank, rfl⟩
  · have hlist : said line = ":env" := by simpa [isSource, hblank] using h
    exact ⟨_, .list hlist, rfl⟩

theorem exists_converses {config : Config} {lines : List String} {before after : Session}
    (h : RunsEach (lines.filter isSource) before after) :
    ∃ consoles, Converses config lines before consoles after := by
  induction lines generalizing before with
  | nil => cases h; exact ⟨[], .done⟩
  | cons line lines ih =>
    by_cases hsource : isSource line
    · rw [List.filter_cons_of_pos hsource] at h
      obtain _ | ⟨hrun, hrest⟩ := h
      obtain ⟨consoles, hconsoles⟩ := ih hrest
      exact ⟨_, .next (.run hsource hrun) hconsoles⟩
    · rw [List.filter_cons_of_neg hsource] at h
      obtain ⟨console, hanswers, -⟩ := answers_of_idle hsource before
      obtain ⟨consoles, hconsoles⟩ := ih h
      exact ⟨_, .next hanswers hconsoles⟩

theorem Converses.append {config : Config} {first second : List String} {before mid after : Session}
    {consoles consoles' : List Console} (h : Converses config first before consoles mid)
    (h' : Converses config second mid consoles' after) :
    Converses config (first ++ second) before (consoles ++ consoles') after := by
  induction h with
  | done => exact h'
  | next hanswers _ ih => exact .next hanswers (ih h')

theorem Converses.split {config : Config} {first second : List String} {before after : Session}
    {consoles : List Console} (h : Converses config (first ++ second) before consoles after) :
    ∃ start mid rest, consoles = start ++ rest ∧ Converses config first before start mid ∧
      Converses config second mid rest after := by
  induction first generalizing before consoles with
  | nil => exact ⟨[], before, consoles, rfl, .done, h⟩
  | cons line first ih =>
    obtain _ | ⟨hanswers, hrest⟩ := h
    obtain ⟨start, mid, rest, rfl, hstart, hsecond⟩ := ih hrest
    exact ⟨_ :: start, mid, rest, rfl, .next hanswers hstart, hsecond⟩

theorem exists_converses_of_idle {config : Config} {lines : List String}
    (h : ∀ line ∈ lines, ¬ isSource line) (session : Session) :
    ∃ consoles, Converses config lines session consoles session ∧
      ∀ console ∈ consoles, console.err = "" := by
  induction lines with
  | nil => exact ⟨[], .done, nofun⟩
  | cons line lines ih =>
    obtain ⟨hline, hlines⟩ := List.forall_mem_cons.1 h
    obtain ⟨console, hanswers, herr⟩ := answers_of_idle hline session
    obtain ⟨consoles, hconsoles, herrs⟩ := ih hlines
    exact ⟨_, .next hanswers hconsoles, List.forall_mem_cons.2 ⟨herr, herrs⟩⟩

/-! ## The session of the prompt -/

/-- The prompt's session has the variables of `session`. Its output has the last run only. -/
structure Tracks (session prompt : Session) : Prop where
  env : prompt.state.env = session.state.env
  takesAll : session.state.out.TakesAll

section

variable {config : Config} (hquiet : config.verbose = false)
include hquiet

theorem exists_runSource {line : String} {before after prompt : Session} {report : Report}
    (h : Runs line before report after) (hprompt : Tracks before prompt) (file : String) :
    ∃ bound status prompt', Tracks after prompt' ∧ ∀ n, bound ≤ n →
      runSource n config file line prompt = some (status,
        ⟨wrote before after, rendered config line file report.diagnostics⟩, prompt') := by
  by_cases hwell : WellFormed line
  · obtain ⟨bound, hrun⟩ := h
    obtain ⟨trace, heq⟩ := Session.exists_run_eq hwell
    have hrun := hrun bound (Nat.le_refl bound)
    rw [heq, Option.map_eq_some_iff] at hrun
    obtain ⟨ending, hending, hpair⟩ := hrun
    cases hpair
    -- The prompt starts from no output where the session goes on after what it wrote.
    have halike : before.state.Alike (Sink.Follows before.state.out.taken)
        { prompt.state with out := {} } :=
      ⟨hprompt.env, rfl, hprompt.takesAll, fun _ _ => rfl⟩
    obtain ⟨ending', hending', herror, hstate⟩ :=
      runsAlike_runAll (runsAlike_exec (keptByWrites_follows _) bound) _ _ _ _ halike hending
    refine ⟨bound, if ending'.error.isSome then .runtimeError else .completed, ⟨ending'.state⟩,
      ⟨hstate.env, hstate.out.takesAll⟩, fun n hn => ?_⟩
    rw [runSource_of_wellFormed hquiet hwell, interpret_refines hn hending', Option.map_some,
      Exit.ofEnding, herror, Session.wrote_eq hstate.out.taken.symm]
    rfl
  · obtain ⟨bound, hrun⟩ := h
    obtain ⟨report', heq, hdiagnostics⟩ := Session.exists_run_of_faulty hwell before
    have heq := heq bound
    rw [hrun bound (Nat.le_refl bound)] at heq
    cases heq
    refine ⟨0, .syntaxError, { state := { prompt.state with out := {} } },
      ⟨hprompt.env, hprompt.takesAll⟩, fun n _ => ?_⟩
    rw [runSource_of_faulty hquiet hwell, hdiagnostics, @Session.wrote_eq _ _ [] rfl]
    rfl

end

theorem ofLine_eq (line : String) : Command.ofLine line =
    if said line = "exit" ∨ said line = "quit" then .leave
    else if said line = "" then .blank
    else if said line = ":env" then .list
    else .run := by
  unfold Command.ofLine
  split <;> simp_all [said]

theorem turn_of_text {line : List UInt8} {text : String} (h : text? line = some text) (n : Nat)
    (config : Config) (session : Session) : turn n config line session =
      if said text = "exit" ∨ said text = "quit" then some (.none, none)
      else if said text = "" then some (.none, some session)
      else if said text = ":env" then some (.output (listing session.state.env), some session)
      else (runSource n config "<repl>" text session).map fun ran => (ran.2.1, some ran.2.2) := by
  have hdecode : decode ⟨line.toArray⟩ = .ok text := by
    unfold decode
    rw [show String.fromUTF8? ⟨line.toArray⟩ = some text from h]
  simp only [turn, hdecode, ofLine_eq]
  by_cases hleave : said text = "exit" ∨ said text = "quit"
  · simp only [if_pos hleave]
  · by_cases hblank : said text = ""
    · simp only [if_neg hleave, if_pos hblank]
    · by_cases hlist : said text = ":env"
      · simp only [if_neg hleave, if_neg hblank, if_pos hlist]
      · simp only [if_neg hleave, if_neg hblank, if_neg hlist]

theorem exists_turn {config : Config} (hquiet : config.verbose = false) {line : List UInt8}
    {text : String} {before after prompt : Session} {console : Console} (hheard : isHeard line)
    (htext : text? line = some text) (h : Answers config text before console after)
    (hprompt : Tracks before prompt) :
    ∃ bound prompt', Tracks after prompt' ∧ ∀ n, bound ≤ n →
      turn n config line prompt = some (console, some prompt') := by
  obtain ⟨text', htext', hstays⟩ := exists_text_of_isHeard hheard
  cases htext.symm.trans htext'
  have hleave : ¬ (said text = "exit" ∨ said text = "quit") := not_or.2 hstays
  cases h with
  | blank hsaid =>
    refine ⟨0, prompt, hprompt, fun n _ => ?_⟩
    rw [turn_of_text htext, if_neg hleave, if_pos hsaid]
    rfl
  | list hsaid =>
    refine ⟨0, prompt, hprompt, fun n _ => ?_⟩
    rw [turn_of_text htext, if_neg hleave, if_neg (by simp [hsaid]), if_pos hsaid]
    simp only [listing, View.unlines, List.map_map, hprompt.env]
    rfl
  | run hsource hrun =>
    obtain ⟨bound, status, prompt', htracks, hrun⟩ := exists_runSource hquiet hrun hprompt "<repl>"
    refine ⟨bound, prompt', htracks, fun n hn => ?_⟩
    simp only [isSource, Bool.and_eq_true, decide_eq_true_iff] at hsource
    rw [turn_of_text htext, if_neg hleave, if_neg hsource.1, if_neg hsource.2]
    simp only [hrun n hn, Option.map_some]

theorem turn_of_not_isHeard {line : List UInt8} (h : isHeard line = false) (n : Nat)
    (config : Config) (session : Session) (lines : List (List UInt8)) :
    turn n config line session = some (.error (readComplaint config (line :: lines)), none) := by
  cases htext : text? line with
  | none =>
    have hdecode : decode ⟨line.toArray⟩ = .error .notText := by
      unfold decode
      rw [show String.fromUTF8? ⟨line.toArray⟩ = none from htext]
    unfold turn readComplaint
    rw [hdecode, List.find?_cons_of_pos (by rw [h]; rfl), Option.any_some, htext]
    rfl
  | some text =>
    have hleave : said text = "exit" ∨ said text = "quit" := by
      rw [isHeard, htext, Option.any_some, Bool.and_eq_false_iff, decide_eq_false_iff_not,
        decide_eq_false_iff_not, Classical.not_not, Classical.not_not] at h
      exact h
    rw [turn_of_text htext, if_pos hleave, readComplaint,
      List.find?_cons_of_pos (by rw [h]; rfl), Option.any_some, htext]
    rfl

/-! ## Whole conversations -/

/-- Everything that is shown, a prompt before each. -/
def spoken (consoles : List Console) : Console :=
  ⟨String.join (consoles.map (promptText ++ ·.out)), String.join (consoles.map (·.err))⟩

theorem spoken_cons (console : Console) (consoles : List Console) :
    spoken (console :: consoles) = .output promptText ++ console ++ spoken consoles := by
  refine congrArg₂ Console.mk String.join_cons ?_
  change _ = "" ++ console.err ++ _
  rw [List.map_cons, String.join_cons, String.empty_append]
  rfl

theorem spoken_append (a b : List Console) : spoken (a ++ b) = spoken a ++ spoken b := by
  refine congrArg₂ Console.mk ?_ ?_
  · rw [List.map_append, String.join_append]; rfl
  · rw [List.map_append, String.join_append]; rfl

theorem converse_cons_of_isHeard {n : Nat} {config : Config} {line : List UInt8}
    {session next : Session} {console : Console}
    (h : turn n config line session = some (console, some next)) (lines : List (List UInt8)) :
    converse n config (line :: lines) session = (converse n config lines next).map
      fun (rest, last) => (.output promptText ++ console ++ rest, last) := by
  simp only [converse, h, Option.bind_eq_bind, Option.bind_some, Option.pure_def]
  cases converse n config lines next <;> rfl

theorem converse_cons_of_not_isHeard {line : List UInt8} (h : isHeard line = false) (n : Nat)
    (config : Config) (lines : List (List UInt8)) (session : Session) :
    converse n config (line :: lines) session =
      some (⟨promptText, readComplaint config (line :: lines)⟩, session) := by
  simp only [converse, turn_of_not_isHeard h n config session lines, Option.bind_eq_bind,
    Option.bind_some, Option.pure_def, Console.append_none, Console.output_append_error]

theorem converse_of_converses {config : Config} (hquiet : config.verbose = false)
    {lines : List (List UInt8)} {before after prompt : Session} {consoles : List Console}
    (h : Converses config (heard lines) before consoles after) (hprompt : Tracks before prompt) :
    ∃ bound last, Tracks after last ∧ ∀ n, bound ≤ n → converse n config lines prompt =
      some (spoken consoles ++ ⟨promptText, readComplaint config lines⟩, last) := by
  -- The bound for all lines is the highest of any; `Tracks` is what carries from line to line.
  induction lines generalizing before prompt consoles with
  | nil =>
    cases h
    exact ⟨0, prompt, hprompt, fun _ _ => rfl⟩
  | cons line lines ih =>
    cases hheard : isHeard line with
    | false =>
      rw [heard, List.takeWhile_cons_of_neg (by simp [hheard])] at h
      cases h
      refine ⟨0, prompt, hprompt, fun n _ => ?_⟩
      exact converse_cons_of_not_isHeard hheard n config lines prompt
    | true =>
      obtain ⟨text, htext, -⟩ := exists_text_of_isHeard hheard
      rw [heard_cons hheard htext] at h
      obtain _ | ⟨hanswers, hrest⟩ := h
      obtain ⟨bound, next, hnext, hturn⟩ := exists_turn hquiet hheard htext hanswers hprompt
      obtain ⟨bound', last, hlast, hconverse⟩ := ih hrest hnext
      refine ⟨max bound bound', last, hlast, fun n hn => ?_⟩
      obtain ⟨hn, hn'⟩ := Nat.max_le.1 hn
      have hcomplaint : readComplaint config (line :: lines) = readComplaint config lines :=
        readComplaint_append config (List.forall_mem_singleton.2 hheard) lines
      rw [converse_cons_of_isHeard (hturn n hn), hconverse n hn', Option.map_some, spoken_cons,
        hcomplaint, Console.append_assoc _ (spoken _)]

theorem converse_of_not_isHeard {stop : List UInt8} (h : isHeard stop = false) (n : Nat)
    (config : Config) (first rest rest' : List (List UInt8)) (session : Session) :
    converse n config (first ++ stop :: rest) session =
      converse n config (first ++ stop :: rest') session := by
  induction first generalizing session with
  | nil =>
    have hcomplaint :
        readComplaint config (stop :: rest) = readComplaint config (stop :: rest') := by
      simp [readComplaint, h]
    rw [List.nil_append, List.nil_append, converse_cons_of_not_isHeard h,
      converse_cons_of_not_isHeard h, hcomplaint]
  | cons line first ih =>
    rw [List.cons_append, List.cons_append, converse, converse]
    simp only [ih]

theorem runPrompt_of_lines {config : Config} (hquiet : config.verbose = false) {input : ByteArray}
    {lines : List (List UInt8)} (hlines : Lines input.toList lines) (n : Nat) :
    runPrompt n config input =
      (converse n config lines {}).map fun (console, _) => ⟨console, 0⟩ := by
  simp only [runPrompt, lines_iff.1 hlines, promptStart, logAll_of_quiet hquiet,
    Console.none_append]

theorem exists_runPrompt {config : Config} (hquiet : config.verbose = false) {input : ByteArray}
    {lines : List (List UInt8)} (hlines : Lines input.toList lines) {consoles : List Console}
    {final : Session} (h : Converses config (heard lines) {} consoles final) :
    ∃ bound last, last.state.env = final.state.env ∧ ∀ n, bound ≤ n →
      let console := spoken consoles ++ ⟨promptText, readComplaint config lines⟩
      converse n config lines {} = some (console, last) ∧
      runPrompt n config input = some ⟨console, 0⟩ := by
  have hstart : Tracks {} {} := ⟨rfl, fun _ _ => rfl⟩
  obtain ⟨bound, last, hlast, hconverse⟩ := converse_of_converses hquiet h hstart
  refine ⟨bound, last, hlast.env, fun n hn => ⟨hconverse n hn, ?_⟩⟩
  rw [runPrompt_of_lines hquiet hlines, hconverse n hn, Option.map_some]

/-! ## Idle lines -/

/-- A line that is blank or asks for the variables. -/
def IsIdle (line : List UInt8) : Prop :=
  ∃ text, text? line = some text ∧ (said text = "" ∨ said text = ":env")

theorem isHeard_of_isIdle {line : List UInt8} (h : IsIdle line) : isHeard line := by
  obtain ⟨text, htext, hsaid⟩ := h
  rw [isHeard, htext, Option.any_some]
  obtain hsaid | hsaid := hsaid <;> rw [hsaid] <;> decide

theorem not_isSource_of_isIdle {lines : List (List UInt8)} (h : ∀ line ∈ lines, IsIdle line) :
    ∀ text ∈ lines.filterMap text?, ¬ isSource text := by
  intro text hmem
  obtain ⟨line, hline, htext⟩ := List.mem_filterMap.1 hmem
  obtain ⟨text', htext', hsaid⟩ := h line hline
  cases htext.symm.trans htext'
  obtain hsaid | hsaid := hsaid <;> simp [isSource, hsaid]

theorem exists_runPrompt_idle {config : Config} (hquiet : config.verbose = false)
    {input input' : ByteArray} {first idle rest : List (List UInt8)}
    (hfirst : ∀ line ∈ first, isHeard line) (hidle : ∀ line ∈ idle, IsIdle line)
    (hlines : Lines input.toList (first ++ rest))
    (hlines' : Lines input'.toList (first ++ idle ++ rest)) {consoles : List Console}
    {final : Session} (h : Converses config (heard (first ++ rest)) {} consoles final) :
    ∃ before mid shown after bound, Converses config (heard first) {} before mid ∧
      Converses config (heard idle) mid shown mid ∧ (∀ console ∈ shown, console.err = "") ∧
      ∀ n, bound ≤ n →
        runPrompt n config input = some ⟨spoken before ++ after, 0⟩ ∧
        runPrompt n config input' = some ⟨spoken before ++ spoken shown ++ after, 0⟩ := by
  have hheard : ∀ line ∈ idle, isHeard line := fun line hline =>
    isHeard_of_isIdle (hidle line hline)
  have hall : ∀ line ∈ first ++ idle, isHeard line := List.forall_mem_append.2 ⟨hfirst, hheard⟩
  have hlater := h
  rw [heard_append hfirst] at hlater
  obtain ⟨before, mid, later, rfl, hbefore, hlater⟩ := hlater.split
  -- The idle lines leave the session as it is, so that the later lines go on from `mid` as well.
  obtain ⟨shown, hshown, herr⟩ :=
    @exists_converses_of_idle config _ (not_isSource_of_isIdle hidle) mid
  rw [← heard_of_forall hheard] at hshown
  have h' :
      Converses config (heard (first ++ idle ++ rest)) {} (before ++ shown ++ later) final := by
    rw [heard_append hall, heard_append hfirst]
    exact (hbefore.append hshown).append hlater
  obtain ⟨bound, _, -, hrun⟩ := exists_runPrompt hquiet hlines h
  obtain ⟨bound', _, -, hrun'⟩ := exists_runPrompt hquiet hlines' h'
  refine ⟨before, mid, shown, spoken later ++ ⟨promptText, readComplaint config rest⟩,
    max bound bound', hbefore, hshown, herr, fun n hn => ?_⟩
  obtain ⟨-, hexit⟩ := hrun n (Nat.max_le.1 hn).1
  obtain ⟨-, hexit'⟩ := hrun' n (Nat.max_le.1 hn).2
  rw [hexit, hexit', readComplaint_append config hfirst, readComplaint_append config hall,
    spoken_append, spoken_append, spoken_append,
    Console.append_assoc (spoken before) (spoken later),
    Console.append_assoc (spoken before ++ spoken shown) (spoken later)]
  exact ⟨rfl, rfl⟩

/-- The prompt runs the lines that are heard one after another in one session. Idle lines change
nothing around them, and no line after one that is not heard has an effect. -/
theorem prompt_is_fold_of_runs {config : Config} (hquiet : config.verbose = false)
    {input : ByteArray} {lines : List (List UInt8)} (hlines : Lines input.toList lines)
    {final : Session} (hruns : RunsEach ((heard lines).filter isSource) {} final) :
    (∃ consoles last bound, Converses config (heard lines) {} consoles final ∧
      last.state.env = final.state.env ∧ ∀ n, bound ≤ n →
        let console : Console :=
          ⟨String.join (consoles.map (promptText ++ ·.out)) ++ promptText,
            String.join (consoles.map (·.err)) ++ readComplaint config lines⟩
        converse n config lines {} = some (console, last) ∧
        runPrompt n config input = some ⟨console, 0⟩) ∧
    (∀ first idle rest input', lines = first ++ rest → (∀ line ∈ first, isHeard line) →
      (∀ line ∈ idle, IsIdle line) → Lines (ByteArray.toList input') (first ++ idle ++ rest) →
      ∃ before mid shown after bound, Converses config (heard first) {} before mid ∧
        Converses config (heard idle) mid shown mid ∧ (∀ console ∈ shown, console.err = "") ∧
        ∀ n, bound ≤ n →
          runPrompt n config input = some ⟨spoken before ++ after, 0⟩ ∧
          runPrompt n config input' = some ⟨spoken before ++ spoken shown ++ after, 0⟩) ∧
    ∀ first stop rest rest' input', lines = first ++ stop :: rest → isHeard stop = false →
      Lines (ByteArray.toList input') (first ++ stop :: rest') →
      ∀ n, runPrompt n config input' = runPrompt n config input := by
  obtain ⟨consoles, hconsoles⟩ := @exists_converses config _ _ _ hruns
  refine ⟨?_, ?_, ?_⟩
  · obtain ⟨bound, last, henv, hrun⟩ := exists_runPrompt hquiet hlines hconsoles
    exact ⟨consoles, last, bound, hconsoles, henv, hrun⟩
  · rintro first idle rest input' rfl hfirst hidle hlines'
    exact exists_runPrompt_idle hquiet hfirst hidle hlines hlines' hconsoles
  · rintro first stop rest rest' input' rfl hstop hlines' n
    rw [runPrompt_of_lines hquiet hlines, runPrompt_of_lines hquiet hlines',
      converse_of_not_isHeard hstop n config first rest' rest]

theorem prompt_is_fold_of_runs_stopped :
    let config : Config := { color := false, verbose := false, dump := none, json := false }
    let input := "var a;\n+\nexit\nscream a;".toUTF8
    (∃ console last bound, last.state.env = ⟨[], [("a", .nil)]⟩ ∧ ∀ n, bound ≤ n →
      converse n config (splitLines input.toList) {} = some (console, last) ∧
      runPrompt n config input = some ⟨console, 0⟩) ∧
    (∃ before shown after bound, (∀ console ∈ shown, console.err = "") ∧ ∀ n, bound ≤ n →
      runPrompt n config input = some ⟨spoken before ++ after, 0⟩ ∧
      runPrompt n config "var a;\n:env\n+\nexit\nscream a;".toUTF8 =
        some ⟨spoken before ++ spoken shown ++ after, 0⟩) ∧
    ∀ n, runPrompt n config "var a;\n+\nexit\n".toUTF8 = runPrompt n config input := by
  intro config input
  let bytes (text : String) : List UInt8 := text.toUTF8.toList
  have hwell : WellFormed "var a;\n" := by
    rw [WellFormed, scan, tokens_ofText]
    exact ⟨errors_ofText_eq_nil (by cbv), by cbv⟩
  have hfaulty : ¬ WellFormed "+\n" := by
    unfold WellFormed
    decide +kernel
  let declared : State := { env := ⟨[], [("a", .nil)]⟩ }
  have hdeclares : interpret 1 (statementsOf "var a;\n") {} = some ⟨none, declared⟩ := by
    rw [statementsOf, scan, tokens_ofText]
    cbv
  obtain ⟨_, hfirst, -⟩ := Session.exists_runs hwell hdeclares
  obtain ⟨_, hsecond, -⟩ := Session.exists_run_of_faulty hfaulty ⟨declared⟩
  have hlines : Lines input.toList (["var a;\n", "+\n", "exit\n", "scream a;"].map bytes) :=
    lines_iff.2 (by decide +kernel)
  have hheard : (heard (["var a;\n", "+\n", "exit\n", "scream a;"].map bytes)).filter isSource =
      ["var a;\n", "+\n"] := by decide +kernel
  have hruns : RunsEach ["var a;\n", "+\n"] {} ⟨declared⟩ :=
    .next hfirst (.next ⟨0, fun n _ => hsecond n⟩ .none)
  rw [← hheard] at hruns
  obtain ⟨⟨consoles, last, bound, -, henv, hrun⟩, hidle, hstop⟩ :=
    @prompt_is_fold_of_runs config rfl _ _ hlines _ hruns
  rw [lines_iff.1 hlines]
  refine ⟨⟨_, last, bound, henv, hrun⟩, ?_, ?_⟩
  · obtain ⟨before, _, shown, after, bound, -, -, herr, hrun⟩ :=
      hidle [bytes "var a;\n"] [bytes ":env\n"] _ "var a;\n:env\n+\nexit\nscream a;".toUTF8 rfl
        (by decide +kernel)
        (List.forall_mem_singleton.2 ⟨":env\n", by decide +kernel, .inr (by decide +kernel)⟩)
        (lines_iff.2 (by decide +kernel))
    exact ⟨before, shown, after, bound, herr, hrun⟩
  · exact hstop [bytes "var a;\n", bytes "+\n"] (bytes "exit\n") _ [] _ rfl (by decide +kernel)
      (lines_iff.2 (by decide +kernel))

end Cli

end Treewalk
