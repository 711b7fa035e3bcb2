import Treewalk.Proofs.Eval.Running

/-!
# Programs and their output

A program does not look at its output, but for a refused write. So it runs alike in two states that
differ in their outputs only, as long as both outputs take the same writes.
-/

namespace Treewalk

/-- Both sinks take or refuse the same, and stay related by `R`. -/
def KeptByWrites (R : Sink → Sink → Prop) : Prop :=
  ∀ texts out out', R out out' → (out'.writeAll texts).1 = (out.writeAll texts).1 ∧
    R (out.writeAll texts).2 (out'.writeAll texts).2

/-- The same variables, and outputs that are related. -/
structure State.Alike (R : Sink → Sink → Prop) (st st' : State) : Prop where
  env : st'.env = st.env
  out : R st.out st'.out

structure Ending.Alike (R : Sink → Sink → Prop) (x x' : Ending) : Prop where
  error : x'.error = x.error
  state : x.state.Alike R x'.state

/-- What ends in one state ends in the other, and alike. -/
def RunsAlike (R : Sink → Sink → Prop) (run run' : State → Option Ending) : Prop :=
  ∀ st st' x, st.Alike R st' → run st = some x → ∃ x', run' st' = some x' ∧ x.Alike R x'

variable {R : Sink → Sink → Prop}

theorem State.Alike.done {st st' : State} (h : st.Alike R st') : st.done.Alike R st'.done :=
  ⟨rfl, h⟩

theorem State.Alike.setEnv {st st' : State} (h : st.Alike R st') (env : Environment) :
    Alike R { st with env } { st' with env } :=
  ⟨rfl, h.out⟩

theorem State.Alike.shown (hR : KeptByWrites R) {st st' : State} (h : st.Alike R st')
    (keyword : Token) (v : Value) : (st.shown keyword v).Alike R (st'.shown keyword v) := by
  obtain ⟨hrefused, hout⟩ :=
    hR (if v.display = "" then ["\n"] else [v.display, "\n"]) _ _ h.out
  refine ⟨?_, h.env, hout⟩
  simp only [State.shown, Sink.writeLine, hrefused]

theorem runsAlike_done : RunsAlike R (some ·.done) (some ·.done) := by
  intro st st' x hst hx
  cases hx
  exact ⟨_, rfl, hst.done⟩

theorem runsAlike_evaluating (e : Expr) {next next' : Value → State → Option Ending}
    (h : ∀ v, RunsAlike R (next v) (next' v)) :
    RunsAlike R (·.evaluating e next) (·.evaluating e next') := by
  intro st st' x hst hx
  have hmid := hst.setEnv (e.eval st.env).env
  obtain ⟨v, hv, hnext⟩ | ⟨error, herror, rfl⟩ := State.evaluating_cases hx
  · obtain ⟨x', hx', halike⟩ := h v _ _ x hmid hnext
    refine ⟨x', ?_, halike⟩
    simp only [State.evaluating, hst.env, hv]
    exact hx'
  · refine ⟨⟨some error, { st' with env := (e.eval st.env).env }⟩, ?_, rfl, hmid⟩
    simp only [State.evaluating, hst.env, herror]

theorem runsAlike_inOrder {first first' next next' : State → Option Ending}
    (hfirst : RunsAlike R first first') (hnext : RunsAlike R next next') :
    RunsAlike R
      (fun st => match first st with
        | some ⟨none, st⟩ => next st
        | ending => ending)
      (fun st => match first' st with
        | some ⟨none, st⟩ => next' st
        | ending => ending) := by
  intro st st' x hst hx
  rcases hrun : first st with _ | ⟨error, mid⟩
  · simp only [hrun] at hx
    cases hx
  · obtain ⟨⟨_, mid'⟩, hrun', herror, hstate⟩ := hfirst st st' _ hst hrun
    cases herror
    cases error with
    | none =>
      simp only [hrun] at hx
      simp only [hrun']
      exact hnext mid mid' x hstate hx
    | some error =>
      simp only [hrun] at hx
      simp only [hrun']
      cases hx
      exact ⟨_, rfl, rfl, hstate⟩

theorem runsAlike_runAll {run run' : Stmt → State → Option Ending}
    (h : ∀ s, RunsAlike R (run s) (run' s)) (body : List Stmt) :
    RunsAlike R (runAll run body) (runAll run' body) := by
  induction body with
  | nil => exact runsAlike_done
  | cons s body ih => exact runsAlike_inOrder (h s) ih

theorem runsAlike_exec (hR : KeptByWrites R) (n : Nat) (s : Stmt) :
    RunsAlike R (s.exec n) (s.exec n) := by
  induction n generalizing s with
  | zero => intro st st' x _ hx; cases hx
  | succ n ih =>
    intro st st' x hst hx
    unfold Stmt.exec at hx ⊢
    cases s with
    | expression e => exact runsAlike_evaluating e (fun v => runsAlike_done) st st' x hst hx
    | print keyword e =>
      refine runsAlike_evaluating e (fun v st st' x hst hx => ?_) st st' x hst hx
      cases hx
      exact ⟨_, rfl, hst.shown hR keyword v⟩
    | declare name init =>
      have hdefine {st st' : State} (hst : st.Alike R st') (v : Value) :
          (st.define name v).Alike R (st'.define name v) :=
        ⟨by simp only [State.define, hst.env], hst.out⟩
      cases init with
      | none => cases hx; exact ⟨_, rfl, (hdefine hst .nil).done⟩
      | some e =>
        refine runsAlike_evaluating e (fun v st st' x hst hx => ?_) st st' x hst hx
        cases hx
        exact ⟨_, rfl, (hdefine hst v).done⟩
    | block body =>
      obtain ⟨inside, hinside, rfl⟩ := Option.map_eq_some_iff.1 hx
      have henter : st.enter.Alike R st'.enter :=
        ⟨by simp only [State.enter, hst.env], hst.out⟩
      obtain ⟨inside', hinside', herror, hstate⟩ := runsAlike_runAll ih body _ _ _ henter hinside
      refine ⟨inside'.leave, Option.map_eq_some_iff.2 ⟨inside', hinside', rfl⟩, herror, ?_⟩
      exact ⟨by simp only [Ending.leave, hstate.env], hstate.out⟩
    | ifThen condition yes =>
      refine runsAlike_evaluating condition (fun v => ?_) st st' x hst hx
      split
      · exact ih yes
      · exact runsAlike_done
    | ifElse condition yes no =>
      refine runsAlike_evaluating condition (fun v => ?_) st st' x hst hx
      split
      · exact ih yes
      · exact ih no
    | loop condition body =>
      refine runsAlike_evaluating condition (fun v => ?_) st st' x hst hx
      split
      · exact runsAlike_inOrder (ih body) (ih (.loop condition body))
      · exact runsAlike_done

/-! ## Outputs that take everything -/

def Sink.TakesAll (out : Sink) : Prop := ∀ taken text, out.refusal? taken text = none

/-- Both take everything, and the first took `earlier` before all that the second took. -/
structure Sink.Follows (earlier : List String) (out out' : Sink) : Prop where
  taken : out.taken = out'.taken ++ earlier
  takesAll : out.TakesAll
  takesAll' : out'.TakesAll

theorem keptByWrites_follows (earlier : List String) : KeptByWrites (Sink.Follows earlier) := by
  intro texts
  induction texts with
  | nil => intro out out' h; exact ⟨rfl, h⟩
  | cons text texts ih =>
    intro out out' h
    rw [Sink.writeAll, Sink.writeAll, h.takesAll, h.takesAll']
    exact ih _ _ ⟨congrArg (text :: ·) h.taken, h.takesAll, h.takesAll'⟩

end Treewalk
