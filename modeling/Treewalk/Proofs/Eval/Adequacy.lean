import Treewalk.Proofs.Eval.Primitives
import Treewalk.Proofs.Eval.Running
import Treewalk.Proofs.Lexeme.Joining
import Treewalk.Proofs.Number.Bits

/-!
# Running follows the rules

A run ends, for some bound, exactly in the ending that the rules derive, with the limit on repeated
strings. So there is at most one, and a run that ends for no bound has none.
-/

namespace Treewalk.Rules

/-! ## Expressions -/

theorem Evaluates.eval_eq {env env' : Environment} {e : Expr} {r : Except RuntimeError Value}
    (h : Evaluates (some repeatLimit) env e r env') : e.eval env = ⟨r, env'⟩ := by
  induction h with
  | literal => rfl
  | grouping _ ih => exact ih
  | unary _ hop ih => simp [Expr.eval, ih, Evaluated.andThen, unary_iff.1 hop, blame]
  | unaryFails _ hop ih => simp [Expr.eval, ih, Evaluated.andThen, unary_iff.1 hop, blame]
  | unaryStops _ ih => simp [Expr.eval, ih, Evaluated.andThen]
  | binary _ _ hop ih ih' => simp [Expr.eval, ih, ih', Evaluated.andThen, hop.apply_eq, blame]
  | binaryFails _ _ hop ih ih' => simp [Expr.eval, ih, ih', Evaluated.andThen, hop.apply_eq, blame]
  | binaryStopsLeft _ ih => simp [Expr.eval, ih, Evaluated.andThen]
  | binaryStopsRight _ _ ih ih' => simp [Expr.eval, ih, ih', Evaluated.andThen]
  | decided _ hdecides ih => simp [Expr.eval, ih, Evaluated.andThen, decides_iff.1 hdecides]
  | undecided _ hdecides _ ih ih' =>
    simp [Expr.eval, ih, ih', Evaluated.andThen, mt decides_iff.2 hdecides]
  | logicalStops _ ih => simp [Expr.eval, ih, Evaluated.andThen]
  | var hinner hfind => simp [Expr.eval, hinner.get?_eq, hfind]
  | varUndefined h => simp [Expr.eval, h.get?_eq, undefined]
  | assign _ hassigns ih => simp [Expr.eval, ih, Evaluated.andThen, assigns_iff.1 hassigns]
  | assignUndefined _ h ih => simp [Expr.eval, ih, Evaluated.andThen, h.assign?_eq, undefined]
  | assignStops _ ih => simp [Expr.eval, ih, Evaluated.andThen]

theorem andThen_cases {x y : Evaluated} {next : Value → Environment → Evaluated}
    (h : x.andThen next = y) : (∃ v env, x = ⟨.ok v, env⟩ ∧ next v env = y) ∨
      ∃ error env, x = ⟨.error error, env⟩ ∧ y = ⟨.error error, env⟩ := by
  obtain ⟨result, env⟩ := x
  cases result with
  | ok v => exact .inl ⟨v, env, rfl, h⟩
  | error error => exact .inr ⟨error, env, rfl, h.symm⟩

theorem evaluates_of_eval {e : Expr} {env env' : Environment} {r : Except RuntimeError Value}
    (h : e.eval env = ⟨r, env'⟩) : Evaluates (some repeatLimit) env e r env' := by
  induction e generalizing env r env' with
  | literal v => cases h; exact .literal
  | grouping inner ih => exact .grouping (ih h)
  | unary op t operand ih =>
    obtain ⟨v, mid, hv, hlast⟩ | ⟨error, mid, herror, heq⟩ := andThen_cases h
    · cases hop : op.apply v <;> rw [hop] at hlast <;> cases hlast
      · exact .unaryFails (ih hv) (unary_iff.2 hop)
      · exact .unary (ih hv) (unary_iff.2 hop)
    · cases heq
      exact .unaryStops (ih herror)
  | binary op t left right ihl ihr =>
    obtain ⟨a, mid, ha, hrest⟩ | ⟨error, mid, herror, heq⟩ := andThen_cases h
    · obtain ⟨b, last, hb, hlast⟩ | ⟨error, last, herror, heq⟩ := andThen_cases hrest
      · have happly := binary_apply op a b
        cases hop : op.apply a b <;> rw [hop] at hlast happly <;> cases hlast
        · exact .binaryFails (ihl ha) (ihr hb) happly
        · exact .binary (ihl ha) (ihr hb) happly
      · cases heq
        exact .binaryStopsRight (ihl ha) (ihr herror)
    · cases heq
      exact .binaryStopsLeft (ihl herror)
  | logical op t left right ihl ihr =>
    obtain ⟨a, mid, ha, hrest⟩ | ⟨error, mid, herror, heq⟩ := andThen_cases h
    · split at hrest
      · next hdecided =>
        cases hrest
        exact .decided (ihl ha) (decides_iff.2 hdecided)
      · next hdecided => exact .undecided (ihl ha) (mt decides_iff.1 hdecided) (ihr hrest)
    · cases heq
      exact .logicalStops (ihl herror)
  | var name =>
    unfold Expr.eval at h
    obtain ⟨inner, frame, outer, hinner⟩ | hundefined := innermost_or_undefined name.lexeme env
    · obtain ⟨v, hv⟩ := Option.isSome_iff_exists.1 hinner.defines
      rw [hinner.get?_eq, hv] at h
      cases h
      exact .var hinner hv
    · rw [hundefined.get?_eq] at h
      cases h
      exact .varUndefined hundefined
  | assign name value ih =>
    obtain ⟨v, mid, hv, hlast⟩ | ⟨error, mid, herror, heq⟩ := andThen_cases h
    · split at hlast
      · next hassign =>
        cases hlast
        exact .assign (ih hv) (assigns_iff.2 hassign)
      · next hassign =>
        cases hlast
        exact .assignUndefined (ih hv) (undefined_of_assign? hassign)
    · cases heq
      exact .assignStops (ih herror)

/-! ## Scopes -/

section

variable {limit : Option Nat}

theorem Evaluates.length_frames {env env' : Environment} {e : Expr}
    {r : Except RuntimeError Value} (h : Evaluates limit env e r env') :
    env'.frames.length = env.frames.length := by
  induction h with
  | literal | var | varUndefined => rfl
  | grouping _ ih | unary _ _ ih | unaryFails _ _ ih | unaryStops _ ih | binaryStopsLeft _ ih
  | decided _ _ ih | logicalStops _ ih | assignUndefined _ _ ih | assignStops _ ih => exact ih
  | binary _ _ _ ih ih' | binaryFails _ _ _ ih ih' | binaryStopsRight _ _ ih ih'
  | undecided _ _ _ ih ih' => exact ih'.trans ih
  | assign _ hassigns ih =>
    obtain ⟨inner, frame, outer, hinner, hframes⟩ := hassigns
    rw [← ih, hframes, hinner.split]
    simp

theorem Binds.length_frames {x : String} {v : Value} {env env' : Environment}
    (h : Binds x v env env') : env'.frames.length = env.frames.length := by
  obtain ⟨frame, outer, hframes, hframes'⟩ := h
  rw [hframes, hframes']
  rfl

mutual

theorem Executes.length_frames {s : Stmt} {st : State} {ending : Ending}
    (h : Executes limit s st ending) :
    ending.state.env.frames.length = st.env.frames.length :=
  match h with
  | .stops _ he | .expression he | .print he _ _ _ | .printRefused he _ _ _ | .ifFalse he _
  | .loopEnds he _ => he.length_frames
  | .declare hbinds => hbinds.length_frames
  | .init he hbinds => hbinds.length_frames.trans he.length_frames
  | .block hinside hbody hlast => by
    have hlength := hbody.length_frames
    rw [hinside, hlast] at hlength
    exact Nat.succ.inj hlength
  | .ifTrue he _ hs | .elseTrue he _ hs | .elseFalse he _ hs | .loopFails he _ hs =>
    hs.length_frames.trans he.length_frames
  | .loopTurns he _ hturn hrest =>
    hrest.length_frames.trans (hturn.length_frames.trans he.length_frames)

theorem ExecutesAll.length_frames {body : List Stmt} {st : State} {ending : Ending}
    (h : ExecutesAll limit body st ending) :
    ending.state.env.frames.length = st.env.frames.length :=
  match h with
  | .nil => rfl
  | .fails hs => hs.length_frames
  | .cons hs hbody => hbody.length_frames.trans hs.length_frames

end

end

/-! ## Statements -/

section

variable {e : Expr} {env env' : Environment} {out : Sink} {next : Value → State → Option Ending}

theorem Evaluates.evaluating_ok {v : Value} (h : Evaluates (some repeatLimit) env e (.ok v) env') :
    State.evaluating ⟨env, out⟩ e next = next v ⟨env', out⟩ := by
  simp [State.evaluating, h.eval_eq]

theorem Evaluates.evaluating_error {error : RuntimeError}
    (h : Evaluates (some repeatLimit) env e (.error error) env') :
    State.evaluating ⟨env, out⟩ e next = some ⟨some error, ⟨env', out⟩⟩ := by
  simp [State.evaluating, h.eval_eq]

theorem evaluates_of_evaluating {ending : Ending}
    (h : State.evaluating ⟨env, out⟩ e next = some ending) :
    (∃ v env', Evaluates (some repeatLimit) env e (.ok v) env' ∧
      next v ⟨env', out⟩ = some ending) ∨
    ∃ error env', Evaluates (some repeatLimit) env e (.error error) env' ∧
      ending = ⟨some error, ⟨env', out⟩⟩ := by
  have hevaluates := evaluates_of_eval (rfl : e.eval env = ⟨(e.eval env).result, (e.eval env).env⟩)
  obtain ⟨v, hv, hnext⟩ | ⟨error, herror, rfl⟩ := State.evaluating_cases h
  · exact .inl ⟨v, _, hv ▸ hevaluates, hnext⟩
  · exact .inr ⟨error, _, herror ▸ hevaluates, rfl⟩

end

theorem Begins.exec_eq {s : Stmt} {e : Expr} {env env' : Environment} {out : Sink}
    {error : RuntimeError} (hs : Begins s e)
    (h : Evaluates (some repeatLimit) env e (.error error) env') :
    s.exec 1 ⟨env, out⟩ = some ⟨some error, ⟨env', out⟩⟩ := by
  cases hs <;> rw [Stmt.exec, h.evaluating_error]

mutual

theorem Executes.exists_exec {s : Stmt} {st : State} {ending : Ending}
    (h : Executes (some repeatLimit) s st ending) : ∃ n, s.exec n st = some ending :=
  match h with
  | .stops hs he => ⟨1, hs.exec_eq he⟩
  | .expression he => ⟨1, by rw [Stmt.exec, he.evaluating_ok]; rfl⟩
  | .print he hdisplays hline hwrites => by
    refine ⟨1, ?_⟩
    rw [Stmt.exec, he.evaluating_ok, shown_eq_iff.2 ⟨_, _, _, _, hdisplays, hline, hwrites, rfl⟩]
    rfl
  | .printRefused he hdisplays hline hwrites => by
    refine ⟨1, ?_⟩
    rw [Stmt.exec, he.evaluating_ok, shown_eq_iff.2 ⟨_, _, _, _, hdisplays, hline, hwrites, rfl⟩]
    rfl
  | .declare hbinds => ⟨1, by rw [Stmt.exec, State.define, binds_iff.1 hbinds]; rfl⟩
  | .init he hbinds =>
    ⟨1, by rw [Stmt.exec, he.evaluating_ok, State.define, binds_iff.1 hbinds]; rfl⟩
  | @Executes.block _ body env inside last env' out out' error frame hinside hbody hlast => by
    obtain ⟨n, hn⟩ := hbody.exists_runAll
    have hlength : 1 < last.frames.length := by
      rw [hlast]
      simp [Environment.frames]
    have hpop : last.pop = env' := (pop_eq_iff hlength).2 ⟨frame, hlast⟩
    obtain rfl : inside = env.push := frames_injective hinside
    refine ⟨n + 1, ?_⟩
    rw [Stmt.exec, State.enter, hn, Option.map_some, Ending.leave, hpop]
  | .ifTrue he hv hs => by
    obtain ⟨n, hn⟩ := hs.exists_exec
    exact ⟨n + 1, by rw [Stmt.exec, he.evaluating_ok, if_pos (not_falsey_iff.1 hv), hn]⟩
  | .ifFalse he hv =>
    ⟨1, by rw [Stmt.exec, he.evaluating_ok, if_neg (falsey_iff.1 hv)]; rfl⟩
  | .elseTrue he hv hs => by
    obtain ⟨n, hn⟩ := hs.exists_exec
    exact ⟨n + 1, by rw [Stmt.exec, he.evaluating_ok, if_pos (not_falsey_iff.1 hv), hn]⟩
  | .elseFalse he hv hs => by
    obtain ⟨n, hn⟩ := hs.exists_exec
    refine ⟨n + 1, ?_⟩
    rw [Stmt.exec, he.evaluating_ok, if_neg (falsey_iff.1 hv), hn]
  | .loopEnds he hv =>
    ⟨1, by rw [Stmt.exec, he.evaluating_ok, if_neg (falsey_iff.1 hv)]; rfl⟩
  | .loopFails he hv hbody => by
    obtain ⟨n, hn⟩ := hbody.exists_exec
    exact ⟨n + 1, by rw [Stmt.exec, he.evaluating_ok, if_pos (not_falsey_iff.1 hv), hn]⟩
  | .loopTurns he hv hbody hrest => by
    obtain ⟨n, hn⟩ := hbody.exists_exec
    obtain ⟨m, hm⟩ := hrest.exists_exec
    have hturn := Stmt.exec_refines (Nat.le_max_left n m) _ _ _ hn
    refine ⟨max n m + 1, ?_⟩
    rw [Stmt.exec, he.evaluating_ok, if_pos (not_falsey_iff.1 hv), hturn]
    exact Stmt.exec_refines (Nat.le_max_right n m) _ _ _ hm

theorem ExecutesAll.exists_runAll {body : List Stmt} {st : State} {ending : Ending}
    (h : ExecutesAll (some repeatLimit) body st ending) :
    ∃ n, runAll (Stmt.exec n) body st = some ending :=
  match h with
  | .nil => ⟨0, rfl⟩
  | .fails hs => by
    obtain ⟨n, hn⟩ := hs.exists_exec
    exact ⟨n, by rw [runAll, hn]⟩
  | .cons hs hbody => by
    obtain ⟨n, hn⟩ := hs.exists_exec
    obtain ⟨m, hm⟩ := hbody.exists_runAll
    refine ⟨max n m, ?_⟩
    rw [runAll, Stmt.exec_refines (Nat.le_max_left n m) _ _ _ hn]
    exact runAll_refines (Stmt.exec_refines (Nat.le_max_right n m)) hm

end

theorem executesAll_of_runAll {run : Stmt → State → Option Ending}
    (h : ∀ s st ending, run s st = some ending → Executes (some repeatLimit) s st ending)
    {body : List Stmt} {st : State} {ending : Ending} (hrun : runAll run body st = some ending) :
    ExecutesAll (some repeatLimit) body st ending := by
  induction body generalizing st with
  | nil => cases hrun; exact .nil
  | cons s body ih =>
    unfold runAll at hrun
    rcases hfirst : run s st with _ | ⟨_ | error, mid⟩
    · rw [hfirst] at hrun; cases hrun
    · rw [hfirst] at hrun; exact .cons (h s st _ hfirst) (ih hrun)
    · rw [hfirst] at hrun; cases hrun; exact .fails (h s st _ hfirst)

theorem executes_of_exec {n : Nat} {s : Stmt} {st : State} {ending : Ending}
    (h : s.exec n st = some ending) : Executes (some repeatLimit) s st ending := by
  induction n generalizing s st ending with
  | zero => cases h
  | succ n ih =>
    obtain ⟨env, out⟩ := st
    unfold Stmt.exec at h
    cases s with
    | expression e =>
      obtain ⟨v, env', hv, hdone⟩ | ⟨error, env', herror, rfl⟩ := evaluates_of_evaluating h
      · cases hdone
        exact .expression hv
      · exact .stops .expression herror
    | print keyword e =>
      obtain ⟨v, env', hv, hshown⟩ | ⟨error, env', herror, rfl⟩ := evaluates_of_evaluating h
      · obtain ⟨text, texts, refused, out', hdisplays, hline, hwrites, rfl⟩ :=
          shown_eq_iff.1 (Option.some.inj hshown)
        cases refused with
        | none => exact .print hv hdisplays hline hwrites
        | some reason => exact .printRefused hv hdisplays hline hwrites
      · exact .stops .print herror
    | declare name init =>
      cases init with
      | none =>
        cases h
        exact .declare (binds_iff.2 rfl)
      | some e =>
        obtain ⟨v, env', hv, hdone⟩ | ⟨error, env', herror, rfl⟩ := evaluates_of_evaluating h
        · cases hdone
          exact .init hv (binds_iff.2 rfl)
        · exact .stops .declare herror
    | block body =>
      obtain ⟨⟨error, ⟨last, out'⟩⟩, hinside, rfl⟩ := Option.map_eq_some_iff.1 h
      have hbody := executesAll_of_runAll (fun _ _ _ => ih) hinside
      have hlength : last.frames.length = env.frames.length + 1 := hbody.length_frames
      have hopen : 1 < last.frames.length := by
        rw [hlength]
        simp [Environment.frames]
      obtain ⟨frame, hlast⟩ := (pop_eq_iff hopen).1 rfl
      exact .block rfl hbody hlast
    | ifThen condition yes =>
      obtain ⟨v, env', hv, hrest⟩ | ⟨error, env', herror, rfl⟩ := evaluates_of_evaluating h
      · split at hrest
        · next htrue => exact .ifTrue hv (not_falsey_iff.2 htrue) (ih hrest)
        · next hfalse =>
          cases hrest
          exact .ifFalse hv (falsey_iff.2 hfalse)
      · exact .stops .ifThen herror
    | ifElse condition yes no =>
      obtain ⟨v, env', hv, hrest⟩ | ⟨error, env', herror, rfl⟩ := evaluates_of_evaluating h
      · split at hrest
        · next htrue => exact .elseTrue hv (not_falsey_iff.2 htrue) (ih hrest)
        · next hfalse => exact .elseFalse hv (falsey_iff.2 hfalse) (ih hrest)
      · exact .stops .ifElse herror
    | loop condition body =>
      obtain ⟨v, env', hv, hrest⟩ | ⟨error, env', herror, rfl⟩ := evaluates_of_evaluating h
      · split at hrest
        · next htrue =>
          have hv' := not_falsey_iff.2 htrue
          rcases hturn : body.exec n ⟨env', out⟩ with _ | ⟨_ | error, mid⟩
          · rw [hturn] at hrest; cases hrest
          · rw [hturn] at hrest; exact .loopTurns hv hv' (ih hturn) (ih hrest)
          · rw [hturn] at hrest; cases hrest; exact .loopFails hv hv' (ih hturn)
        · next hfalse =>
          cases hrest
          exact .loopEnds hv (falsey_iff.2 hfalse)
      · exact .stops .loop herror

/-! ## Programs -/

theorem interpret_iff {body : List Stmt} {st : State} {ending : Ending} :
    (∃ n, interpret n body st = some ending) ↔
      ExecutesAll (some repeatLimit) body st ending := by
  constructor
  · rintro ⟨n, hn⟩
    exact executesAll_of_runAll (fun _ _ _ => executes_of_exec) hn
  · exact fun h => h.exists_runAll

theorem ExecutesAll.unique {body : List Stmt} {st : State} {ending ending' : Ending}
    (h : ExecutesAll (some repeatLimit) body st ending)
    (h' : ExecutesAll (some repeatLimit) body st ending') : ending = ending' := by
  obtain ⟨n, hn⟩ := interpret_iff.2 h
  obtain ⟨m, hm⟩ := interpret_iff.2 h'
  have hn := interpret_refines (Nat.le_max_left n m) hn
  have hm := interpret_refines (Nat.le_max_right n m) hm
  exact Option.some.inj (hn.symm.trans hm)

end Treewalk.Rules

namespace Treewalk

open Rules

/-- A run ends just as the rules say, with the limit on repeated strings. -/
theorem interpret_follows_rules (body : List Stmt) (st : State) :
    (∀ ending, (∃ n, interpret n body st = some ending) ↔
      ExecutesAll (some repeatLimit) body st ending) ∧
    (∀ ending ending', ExecutesAll (some repeatLimit) body st ending →
      ExecutesAll (some repeatLimit) body st ending' → ending = ending') ∧
    ((∀ n, interpret n body st = none) ↔
      ¬ ∃ ending, ExecutesAll (some repeatLimit) body st ending) := by
  refine ⟨fun ending => interpret_iff, fun ending ending' => ExecutesAll.unique, ?_⟩
  constructor
  · rintro hnone ⟨ending, h⟩
    obtain ⟨n, hn⟩ := interpret_iff.2 h
    rw [hnone n] at hn
    cases hn
  · intro hno n
    refine Option.eq_none_iff_forall_ne_some.2 fun ending hn => hno ⟨ending, ?_⟩
    exact interpret_iff.1 ⟨n, hn⟩

/-! Without the limit the rules would let a program go on that is stopped. -/

theorem statements_repeat_string : (parse (scan "\"ab\" * 1073741824;").tokens).statements =
    [.expression (.binary .multiply { kind := .star, lexeme := "*", line := 1, span := ⟨5, 6⟩ }
      (.literal (.string "ab")) (.literal (.number (Number.read "1073741824".toList))))] := by
  have hlex : Lexeme.lex "\"ab\" * 1073741824;".toList =
      [⟨.string, 0, "\"ab\"".toList⟩, ⟨.token .star, 5, ['*']⟩,
        ⟨.number, 7, "1073741824".toList⟩, ⟨.token .semicolon, 17, [';']⟩] := by
    decide +kernel
  rw [scan, tokens_ofText, words, hlex]
  simp only [List.filterMap_cons, Lexeme.token?, Lexeme.tokenKind?, Option.map_some,
    Lexeme.literal?]
  -- The tree is the same for any number, and reading this one is no part of parsing.
  generalize Number.read "1073741824".toList = x
  cbv

theorem counts_gibi : Counts (Number.read "1073741824".toList) 1073741824 := by
  have hpattern : Number.nearest 1073741824 1 < Number.infinityPattern := by decide +kernel
  have hform := Number.form_ofBits hpattern
  have hwhole : (Number.Magnitude.ofPattern (Number.nearest 1073741824 1)).whole = 1073741824 := by
    decide +kernel
  have hcounts := Counts.positive hform
  rw [hwhole] at hcounts
  exact hcounts

/-- A string of two bytes repeated so often would have two gibibytes. -/
theorem rules_without_limit_differ :
    ∃ ending, ExecutesAll none (parse (scan "\"ab\" * 1073741824;").tokens).statements {} ending ∧
      ∀ n, interpret n (parse (scan "\"ab\" * 1073741824;").tokens).statements {} ≠
        some ending := by
  rw [statements_repeat_string]
  have hgoes : Repeats none "ab" _ _ := .repeated counts_gibi nofun
  refine ⟨⟨none, {}⟩, .cons (.expression (.binary .literal .literal (.repeated hgoes))) .nil, ?_⟩
  intro n hn
  have hlarge : repeatLimit < "ab".utf8ByteSize * 1073741824 := by decide +kernel
  have hstops : Repeats (some repeatLimit) "ab" _ _ := .tooLarge counts_gibi rfl hlarge
  have hends := interpret_iff.1 ⟨n, hn⟩
  have hsame := hends.unique
    (.fails (.stops .expression (.binaryFails .literal .literal (.repeated hstops))))
  cases hsame

end Treewalk
