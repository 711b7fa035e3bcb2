import Treewalk.Proofs.Eval.Blame
import Treewalk.Proofs.Lexeme.Places
import Treewalk.Proofs.Session.Reports
import Treewalk.Proofs.Syntax.Layout

/-!
# Where errors point

Every error that a run reports points into the source that is run: at its characters, at one of its
tokens or at its end. The token of a runtime error is the one whose operation failed.
-/

namespace Treewalk

open Source

/-! ## No token from elsewhere

The parser and the evaluator do not look at places. So if all tokens but those of a list were moved,
they would do the same with the list, and hence a token that they come up with was not moved. -/

open Classical in
/-- Moves a token unless it is one of these. -/
noncomputable def Token.moveOthers (ts : List Token) (t : Token) : Token :=
  if t ∈ ts then t else { t with line := t.line + 1 }

theorem Token.moves_moveOthers (ts : List Token) : Moves (moveOthers ts) := by
  constructor <;> intro t <;> unfold moveOthers <;> split <;> rfl

theorem Token.mem_of_moveOthers_eq {ts : List Token} {t : Token} (h : moveOthers ts t = t) :
    t ∈ ts := by
  unfold moveOthers at h
  split at h
  · assumption
  · have hline := congrArg Token.line h
    simp at hline

theorem Token.map_moveOthers (ts : List Token) : ts.map (moveOthers ts) = ts := by
  conv_rhs => rw [← List.map_id ts]
  refine List.map_congr_left fun t ht => ?_
  rw [moveOthers, if_pos ht]
  rfl

theorem mem_of_mem_complaints {ts : List Token} {c : Complaint} {t : Token}
    (hc : c ∈ (Parser.program ts).complaints) (ht : c.token = some t) : t ∈ ts := by
  have hmoved := Parser.follows_program (Token.moves_moveOthers ts) ts
  rw [Token.map_moveOthers] at hmoved
  have hsame := congrArg Outcome.complaints hmoved
  rw [Outcome.complaints_mapTokens] at hsame
  have hfixed : c.mapToken (.moveOthers ts) = c :=
    (List.map_inj_left.1 ((List.map_id _).trans hsame) c hc).symm
  have htoken := congrArg Complaint.token hfixed
  simp only [Complaint.mapToken, ht, Option.map_some, Option.some.injEq] at htoken
  exact Token.mem_of_moveOthers_eq htoken

theorem mem_of_interpret_parse {tokens : List Token} {n : Nat} {st : State} {ending : Ending}
    {e : RuntimeError} (h : interpret n (parse tokens).statements st = some ending)
    (he : ending.error = some e) : e.token ∈ tokens := by
  have hmoves := Token.moves_moveOthers tokens
  have hmoved := runAll_mapTokens (Stmt.exec_mapTokens hmoves n) (parse tokens).statements st
  rw [← statements_parse_moved hmoves, Token.map_moveOthers] at hmoved
  change interpret n _ st = _ at hmoved
  rw [show runAll _ _ st = some ending from h, Option.map_some, h] at hmoved
  have herror := congrArg Ending.error (Option.some.inj hmoved)
  rw [Ending.mapToken, he] at herror
  have htoken := congrArg RuntimeError.token (Option.some.inj herror)
  exact Token.mem_of_moveOthers_eq htoken.symm

/-! ## Errors in the syntax -/

/-- The error says that it is at the end, and it is, or it quotes the text of its span. -/
def SyntaxError.Quotes (source : String) (e : SyntaxError) : Prop :=
  (e.location = some .atEnd ∧ e.span = ⟨source.utf8ByteSize, source.utf8ByteSize⟩) ∨
    ∃ text, e.location = some (.atLexeme text) ∧ Shows source e.span text

theorem exists_token_of_mem_parse {source : String} {e : SyntaxError}
    (h : e ∈ (parse (scan source).tokens).errors) :
    ∃ t ∈ (scan source).tokens, e = .atToken e.cause t := by
  obtain ⟨⟨cause, token⟩, hc, rfl⟩ := List.mem_map.1 h
  rw [scan, beforeEnd_ofText] at hc
  cases token with
  | none =>
    refine ⟨endToken (scan source).tokens, ?_, rfl⟩
    rw [endToken_scan, tokens_scan]
    exact List.mem_append_right _ (List.mem_singleton_self _)
  | some t =>
    refine ⟨t, ?_, rfl⟩
    rw [tokens_scan]
    exact List.mem_append_left _ (mem_of_mem_complaints hc rfl)

theorem quotes_of_mem_parse {source : String} {e : SyntaxError}
    (h : e ∈ (parse (scan source).tokens).errors) :
    e.Quotes source ∧ PointsInto source e.line e.span := by
  obtain ⟨t, ht, he⟩ := exists_token_of_mem_parse h
  have hpoints := pointsInto_of_mem_tokens ht
  rw [he]
  refine ⟨?_, hpoints⟩
  rw [tokens_scan, List.mem_append, List.mem_singleton] at ht
  obtain ht | rfl := ht
  · refine .inr ⟨t.lexeme, ?_, (shows_of_mem_words ht).1⟩
    simp [SyntaxError.atToken, Lexeme.isEnd_of_mem_words ht]
  · exact .inl ⟨rfl, rfl⟩

/-! ## Errors of a run -/

theorem Session.blames_token {before after : Session} {n : Nat} {source : String} {status : Status}
    {log : ErrorLog} {e : RuntimeError}
    (hrun : before.runWith ErrorLog.reporter n source {} = some (status, log, after))
    (he : e ∈ log.runtimeErrors) : e.token ∈ (scan source).tokens ∧ e.Fits := by
  by_cases h : WellFormed source
  · rw [runWith_of_wellFormed h, Option.map_eq_some_iff] at hrun
    obtain ⟨ending, hending, heq⟩ := hrun
    cases heq
    rw [ErrorLog.runtimeErrors_tellAll, runtimeErrors_eventsOf] at he
    have he : ending.error = some e := by simpa using he
    refine ⟨mem_of_interpret_parse hending he, ?_⟩
    have hfits : ending.Fits := fits_runAll
      (fun s hs _ _ hrun => Stmt.fits_exec (declared_of_mem_parse hs) hrun) hending
    exact hfits e he
  · rw [runWith_of_faulty h] at hrun
    cases hrun
    rw [ErrorLog.runtimeErrors_tellAll, runtimeErrors_eventsOf] at he
    simp at he

/-- A run tells every reporter the same errors, and each points into the source. A runtime error is
at a token of a kind that fails for this cause. -/
theorem errors_point_into_source {ρ : Type} {reporter : Reporter ρ} {n : Nat} {source : String}
    {log log' : ρ} {status : Status} {before after : Session}
    (hrun : before.runWith reporter n source log = some (status, log', after)) :
    ∃ events : List Event,
      (∀ (ρ : Type) (reporter : Reporter ρ) log,
        before.runWith reporter n source log = some (status, reporter.tellAll log events, after)) ∧
      (∀ e, .syntaxError e ∈ events → e ∈ syntaxErrorsOf source ∧
        PointsInto source e.line e.span ∧
        (e ∈ (parse (scan source).tokens).errors → e.Quotes source)) ∧
      ∀ e, .runtimeError e ∈ events → e.token ∈ (scan source).tokens ∧
        PointsInto source e.line e.token.span ∧ e.Fits := by
  obtain ⟨message, error, hall, -⟩ := Session.exists_eventsOf hrun
  refine ⟨eventsOf source message error, hall, fun e he => ?_, fun e he => ?_⟩
  · have hmem : e ∈ syntaxErrorsOf source := by
      rw [← syntaxErrors_eventsOf source message error]
      exact List.mem_filterMap.2 ⟨_, he, rfl⟩
    refine ⟨hmem, ?_, fun hparse => (quotes_of_mem_parse hparse).1⟩
    obtain hscan | hparse := List.mem_append.1 hmem
    · exact pointsInto_of_mem_errors hscan
    · exact (quotes_of_mem_parse hparse).2
  · have hmem : e ∈ (ErrorLog.reporter.tellAll {} (eventsOf source message error)).runtimeErrors := by
      rw [ErrorLog.runtimeErrors_tellAll]
      exact List.mem_append_right _ (List.mem_filterMap.2 ⟨_, he, rfl⟩)
    obtain ⟨htoken, hfits⟩ := Session.blames_token (hall _ ErrorLog.reporter {}) hmem
    exact ⟨htoken, pointsInto_of_mem_tokens htoken, hfits⟩

theorem errors_point_into_source_negation : ∃ (log : ErrorLog) (after : Session),
    Session.runWith ErrorLog.reporter 1 "scream \"é\";\nscream -\"é\";" {} {} =
      some (.runtimeError, log, after) ∧
    ∃ e ∈ log.runtimeErrors, e.line = 2 ∧ e.token.span = ⟨20, 21⟩ ∧ e.token.kind = .minus ∧
      PointsInto "scream \"é\";\nscream -\"é\";" e.line e.token.span := by
  have hwell : WellFormed "scream \"é\";\nscream -\"é\";" := by
    unfold WellFormed
    decide +kernel
  have hfails : (interpret 1 (statementsOf "scream \"é\";\nscream -\"é\";") {}).any fun ending =>
      ending.error.any fun e =>
        e.line = 2 && e.token.span = ⟨20, 21⟩ && e.token.kind = .minus := by
    decide +kernel
  obtain ⟨⟨error, state⟩, hending, herror⟩ := (Option.any_eq_true _ _).1 hfails
  obtain ⟨e, rfl, he⟩ := (Option.any_eq_true _ _).1 herror
  simp only [Bool.and_eq_true, decide_eq_true_eq] at he
  obtain ⟨⟨hline, hspan⟩, hkind⟩ := he
  have hrun := @Session.runWith_of_wellFormed _ ErrorLog.reporter 1 _ {} {} hwell
  rw [hending, Option.map_some] at hrun
  obtain ⟨events, hall, -, hruntime⟩ := errors_point_into_source hrun
  have hsame := (hall _ ErrorLog.reporter {}).symm.trans hrun
  simp only [Option.some.injEq, Prod.mk.injEq] at hsame
  have hlogged : e ∈ (ErrorLog.reporter.tellAll {} events).runtimeErrors := by
    rw [hsame.2.1, ErrorLog.runtimeErrors_tellAll, runtimeErrors_eventsOf]
    simp
  have htold : Event.runtimeError e ∈ events := by
    rw [ErrorLog.runtimeErrors_tellAll, List.nil_append] at hlogged
    obtain ⟨event, hevent, heq⟩ := List.mem_filterMap.1 hlogged
    cases event <;> cases heq
    exact hevent
  exact ⟨_, _, hall _ _ _, e, hlogged, hline, hspan, hkind, (hruntime e htold).2.1⟩

end Treewalk
