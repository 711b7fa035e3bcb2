import Treewalk.Eval.Stmt
import Treewalk.Proofs.Syntax.Relocation

/-!
# Laws of running

A bound that is high enough stays high enough and gives the same. A list of statements runs like
its first part and then the rest. Statements with moved tokens do the same and only report their
errors at the moved token. A run only adds to the output.
-/

namespace Treewalk

theorem State.evaluating_cases {st : State} {e : Expr} {next : Value → State → Option Ending}
    {ending : Ending} (h : st.evaluating e next = some ending) :
    (∃ v, (e.eval st.env).result = .ok v ∧
      next v { st with env := (e.eval st.env).env } = some ending) ∨
    ∃ error, (e.eval st.env).result = .error error ∧
      ending = ⟨some error, { st with env := (e.eval st.env).env }⟩ := by
  unfold evaluating at h
  dsimp only at h
  split at h
  · next v hv => exact .inl ⟨v, hv, h⟩
  · next error herror => exact .inr ⟨error, herror, (Option.some.inj h).symm⟩

/-! ## Moved tokens -/

def RuntimeError.mapToken (f : Token → Token) (e : RuntimeError) : RuntimeError :=
  { e with token := f e.token }

def Evaluated.mapToken (f : Token → Token) (x : Evaluated) : Evaluated :=
  { x with result := x.result.mapError (·.mapToken f) }

def Ending.mapToken (f : Token → Token) (x : Ending) : Ending :=
  { x with error := x.error.map (·.mapToken f) }

variable {f : Token → Token}

theorem Evaluated.andThen_mapToken (x : Evaluated) {next next' : Value → Environment → Evaluated}
    (h : ∀ v env, next' v env = (next v env).mapToken f) :
    (x.mapToken f).andThen next' = (x.andThen next).mapToken f := by
  obtain ⟨result, env⟩ := x
  cases result with
  | ok v => exact h v env
  | error e => rfl

theorem blame_mapToken (t : Token) (r : Except RuntimeError.Cause Value) (env : Environment) :
    (⟨blame (f t) r, env⟩ : Evaluated) = Evaluated.mapToken f ⟨blame t r, env⟩ := by
  cases r <;> rfl

theorem undefined_mapToken (hf : Token.Moves f) (name : Token) :
    undefined (f name) = (undefined name).mapToken f := by
  simp [undefined, RuntimeError.mapToken, hf.lexeme]

theorem Expr.eval_mapTokens (hf : Token.Moves f) (e : Expr) (env : Environment) :
    (e.mapTokens f).eval env = (e.eval env).mapToken f := by
  induction e generalizing env with
  | literal v => rfl
  | grouping inner ih => exact ih env
  | unary op t operand ih =>
    simp only [mapTokens, eval, ih]
    exact Evaluated.andThen_mapToken _ fun v env => blame_mapToken t _ env
  | binary op t left right ihl ihr =>
    simp only [mapTokens, eval, ihl]
    refine Evaluated.andThen_mapToken _ fun a env => ?_
    rw [ihr]
    exact Evaluated.andThen_mapToken _ fun b env => blame_mapToken t _ env
  | logical op t left right ihl ihr =>
    simp only [mapTokens, eval, ihl]
    refine Evaluated.andThen_mapToken _ fun a env => ?_
    split
    · rfl
    · exact ihr env
  | var name =>
    simp only [mapTokens, eval, hf.lexeme, undefined_mapToken hf]
    split <;> rfl
  | assign name value ih =>
    simp only [mapTokens, eval, ih, hf.lexeme, undefined_mapToken hf]
    refine Evaluated.andThen_mapToken _ fun v env => ?_
    split <;> rfl

theorem State.evaluating_mapTokens (hf : Token.Moves f) (st : State) (e : Expr)
    {next next' : Value → State → Option Ending}
    (h : ∀ v st, next' v st = (next v st).map (·.mapToken f)) :
    st.evaluating (e.mapTokens f) next' = (st.evaluating e next).map (·.mapToken f) := by
  simp only [evaluating, e.eval_mapTokens hf, Evaluated.mapToken]
  cases (e.eval st.env).result with
  | ok v => exact h v _
  | error error => rfl

theorem State.shown_mapToken (keyword : Token) (v : Value) (st : State) :
    st.shown (f keyword) v = (st.shown keyword v).mapToken f := by
  simp only [shown, Ending.mapToken, Option.map_map]
  rfl

theorem runAll_mapTokens {run run' : Stmt → State → Option Ending}
    (h : ∀ s st, run' (s.mapTokens f) st = (run s st).map (·.mapToken f)) (body : List Stmt)
    (st : State) :
    runAll run' (body.map (·.mapTokens f)) st = (runAll run body st).map (·.mapToken f) := by
  induction body generalizing st with
  | nil => rfl
  | cons s body ih =>
    rw [List.map_cons, runAll, runAll, h]
    rcases run s st with _ | ⟨_ | e, st'⟩
    · rfl
    · exact ih st'
    · rfl

theorem Stmt.exec_mapTokens (hf : Token.Moves f) (n : Nat) (s : Stmt) (st : State) :
    (s.mapTokens f).exec n st = (s.exec n st).map (·.mapToken f) := by
  induction n generalizing s st with
  | zero => rfl
  | succ n ih =>
    cases s with
    | expression e =>
      rw [mapTokens, exec, exec]
      exact st.evaluating_mapTokens hf e fun _ _ => rfl
    | print keyword e =>
      rw [mapTokens, exec, exec]
      exact st.evaluating_mapTokens hf e fun v st => congrArg some (st.shown_mapToken keyword v)
    | declare name init =>
      cases init with
      | none => simp [mapTokens, exec, State.define, hf.lexeme, State.done, Ending.mapToken]
      | some e =>
        rw [mapTokens, Option.map_some, exec, exec]
        refine st.evaluating_mapTokens hf e fun v st => ?_
        simp [State.define, hf.lexeme, State.done, Ending.mapToken]
    | block body =>
      simp only [mapTokens, exec, mapTokensAll_eq, runAll_mapTokens ih, Option.map_map]
      rfl
    | ifThen condition yes =>
      rw [mapTokens, exec, exec]
      refine st.evaluating_mapTokens hf condition fun v st => ?_
      split
      · exact ih yes st
      · rfl
    | ifElse condition yes no =>
      rw [mapTokens, exec, exec]
      refine st.evaluating_mapTokens hf condition fun v st => ?_
      split
      · exact ih yes st
      · exact ih no st
    | loop condition body =>
      rw [mapTokens, exec, exec]
      refine st.evaluating_mapTokens hf condition fun v st => ?_
      split
      · rw [ih body st]
        rcases body.exec n st with _ | ⟨_ | e, st'⟩
        · rfl
        · exact ih (loop condition body) st'
        · rfl
      · rfl

/-! ## Higher bounds -/

/-- Has every answer that `run` has. -/
def Refines (run' run : Stmt → State → Option Ending) : Prop :=
  ∀ s st x, run s st = some x → run' s st = some x

theorem runAll_refines {run run' : Stmt → State → Option Ending} (h : Refines run' run)
    {body : List Stmt} {st : State} {x : Ending} (hx : runAll run body st = some x) :
    runAll run' body st = some x := by
  induction body generalizing st with
  | nil => exact hx
  | cons s body ih =>
    unfold runAll at hx ⊢
    cases hs : run s st with
    | none => rw [hs] at hx; cases hx
    | some first =>
      rw [hs] at hx
      rw [h s st first hs]
      obtain ⟨_ | e, st'⟩ := first
      · exact ih hx
      · exact hx

theorem State.evaluating_refines (st : State) (e : Expr) {next next' : Value → State → Option Ending}
    (h : ∀ v st x, next v st = some x → next' v st = some x) {x : Ending}
    (hx : st.evaluating e next = some x) : st.evaluating e next' = some x := by
  unfold evaluating at hx ⊢
  cases hr : (e.eval st.env).result with
  | ok v => simp only [hr] at hx ⊢; exact h v _ x hx
  | error error => simp only [hr] at hx ⊢; exact hx

theorem Stmt.exec_refines {n m : Nat} (h : n ≤ m) : Refines (exec m) (exec n) := by
  induction n generalizing m with
  | zero => intro s st x hx; cases hx
  | succ n ih =>
    obtain ⟨m, rfl⟩ : ∃ k, m = k + 1 := ⟨m - 1, by omega⟩
    have ih : Refines (exec m) (exec n) := ih (by omega)
    intro s st x hx
    unfold exec at hx ⊢
    cases s with
    | expression e => exact hx
    | print keyword e => exact hx
    | declare name init => cases init <;> exact hx
    | block body =>
      obtain ⟨y, hy, rfl⟩ := Option.map_eq_some_iff.1 hx
      exact Option.map_eq_some_iff.2 ⟨y, runAll_refines ih hy, rfl⟩
    | ifThen condition yes =>
      refine st.evaluating_refines condition (fun v st x hx => ?_) hx
      split at hx
      · rw [if_pos ‹_›]; exact ih yes st x hx
      · rw [if_neg ‹_›]; exact hx
    | ifElse condition yes no =>
      refine st.evaluating_refines condition (fun v st x hx => ?_) hx
      split at hx
      · rw [if_pos ‹_›]; exact ih yes st x hx
      · rw [if_neg ‹_›]; exact ih no st x hx
    | loop condition body =>
      refine st.evaluating_refines condition (fun v st x hx => ?_) hx
      split at hx
      · rw [if_pos ‹_›]
        cases hbody : exec n body st with
        | none => rw [hbody] at hx; cases hx
        | some turn =>
          rw [hbody] at hx
          rw [ih body st turn hbody]
          obtain ⟨_ | e, st'⟩ := turn
          · exact ih (loop condition body) st' x hx
          · exact hx
      · rw [if_neg ‹_›]; exact hx

theorem interpret_refines {n m : Nat} (h : n ≤ m) {body : List Stmt} {st : State} {x : Ending}
    (hx : interpret n body st = some x) : interpret m body st = some x :=
  runAll_refines (Stmt.exec_refines h) hx

/-! ## One part after another -/

theorem runAll_append {run : Stmt → State → Option Ending} {first second : List Stmt}
    {st st' : State} (h : runAll run first st = some ⟨none, st'⟩) :
    runAll run (first ++ second) st = runAll run second st' := by
  induction first generalizing st with
  | nil => cases h; rfl
  | cons s first ih =>
    rw [runAll] at h
    rw [List.cons_append, runAll]
    rcases hs : run s st with _ | ⟨_ | e, mid⟩
    · rw [hs] at h; cases h
    · rw [hs] at h; exact ih h
    · rw [hs] at h; cases h

/-! ## Output -/

theorem Sink.taken_writeAll (texts : List String) (out : Sink) :
    out.taken <:+ (out.writeAll texts).2.taken := by
  induction texts generalizing out with
  | nil => exact List.suffix_rfl
  | cons text texts ih =>
    unfold writeAll
    split
    · exact List.suffix_rfl
    · exact (List.suffix_cons text out.taken).trans (ih { out with taken := text :: out.taken })

/-- A run that adds to the output, if it ends. -/
def Adds (run : Stmt → State → Option Ending) : Prop :=
  ∀ s st x, run s st = some x → st.out.taken <:+ x.state.out.taken

theorem runAll_adds {run : Stmt → State → Option Ending} (h : Adds run) {body : List Stmt}
    {st : State} {x : Ending} (hx : runAll run body st = some x) :
    st.out.taken <:+ x.state.out.taken := by
  induction body generalizing st with
  | nil => cases hx; exact List.suffix_rfl
  | cons s body ih =>
    unfold runAll at hx
    rcases hs : run s st with _ | ⟨_ | e, st'⟩
    · rw [hs] at hx; cases hx
    · rw [hs] at hx; exact (h s st _ hs).trans (ih hx)
    · rw [hs] at hx; cases hx; exact h s st _ hs

theorem State.evaluating_adds (st : State) (e : Expr) {next : Value → State → Option Ending}
    (h : ∀ v st x, next v st = some x → st.out.taken <:+ x.state.out.taken) {x : Ending}
    (hx : st.evaluating e next = some x) : st.out.taken <:+ x.state.out.taken := by
  unfold evaluating at hx
  cases hr : (e.eval st.env).result with
  | ok v => simp only [hr] at hx; exact h v { st with env := (e.eval st.env).env } x hx
  | error error => simp only [hr] at hx; cases hx; exact List.suffix_rfl

theorem Stmt.exec_adds (n : Nat) : Adds (exec n) := by
  induction n with
  | zero => intro s st x hx; cases hx
  | succ n ih =>
    intro s st x hx
    unfold exec at hx
    cases s with
    | expression e =>
      exact st.evaluating_adds e (fun v st x hx => by cases hx; exact List.suffix_rfl) hx
    | print keyword e =>
      exact st.evaluating_adds e (fun v st x hx => by cases hx; exact Sink.taken_writeAll _ _) hx
    | declare name init =>
      cases init with
      | none => cases hx; exact List.suffix_rfl
      | some e => exact st.evaluating_adds e (fun v st x hx => by cases hx; exact List.suffix_rfl) hx
    | block body =>
      obtain ⟨y, hy, rfl⟩ := Option.map_eq_some_iff.1 hx
      have hadds := runAll_adds ih hy
      exact hadds
    | ifThen condition yes =>
      refine st.evaluating_adds condition (fun v st x hx => ?_) hx
      split at hx
      · exact ih yes st x hx
      · cases hx; exact List.suffix_rfl
    | ifElse condition yes no =>
      refine st.evaluating_adds condition (fun v st x hx => ?_) hx
      split at hx
      · exact ih yes st x hx
      · exact ih no st x hx
    | loop condition body =>
      refine st.evaluating_adds condition (fun v st x hx => ?_) hx
      split at hx
      · rcases hbody : exec n body st with _ | ⟨_ | e, st'⟩
        · rw [hbody] at hx; cases hx
        · rw [hbody] at hx
          exact (ih body st _ hbody).trans (ih (loop condition body) st' x hx)
        · rw [hbody] at hx; cases hx; exact ih body st _ hbody
      · cases hx; exact List.suffix_rfl

end Treewalk
