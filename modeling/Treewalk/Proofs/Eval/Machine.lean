import Mathlib.Logic.Function.Iterate
import Treewalk.Proofs.Eval.Running

/-!
# Runs step by step

A machine takes one step at a time, and what is left to do stands in a list. An expression is one
step, and so is a write. So a run that never ends has states too. The machine ends exactly if the
run does, and with the same ending.
-/

namespace Treewalk

/-- The writes that make a line. -/
def Sink.lineWrites (text : String) : List String := if text = "" then ["\n"] else [text, "\n"]

inductive Task where
  | run (s : Stmt)
  /-- Closes a scope. -/
  | leave

namespace State

def leave (st : State) : State := { st with env := st.env.pop }

def wrote (text : String) (st : State) : State :=
  { st with out := { st.out with taken := text :: st.out.taken } }

/-- Closes the scopes that a failure finds open. -/
def unwind : List Task → State → State
  | [], st => st
  | .run _ :: tasks, st => unwind tasks st
  | .leave :: tasks, st => unwind tasks st.leave

end State

inductive Machine where
  | ready (tasks : List Task) (st : State)
  /-- Some of a line is written, and these texts are left of it. -/
  | writing (keyword : Token) (texts : List String) (tasks : List Task) (st : State)
  | ended (ending : Ending)

namespace Machine

def fail (error : RuntimeError) (tasks : List Task) (st : State) : Machine :=
  ended ⟨some error, st.unwind tasks⟩

def evaluating (e : Expr) (tasks : List Task) (st : State) (next : Value → State → Machine) :
    Machine :=
  let x := e.eval st.env
  match x.result with
  | .ok v => next v { st with env := x.env }
  | .error error => fail error tasks { st with env := x.env }

/-- Begins with a statement. -/
def start (tasks : List Task) (st : State) : Stmt → Machine
  | .expression e => evaluating e tasks st fun _ st => ready tasks st
  | .print keyword e =>
    evaluating e tasks st fun v st => writing keyword (Sink.lineWrites v.display) tasks st
  | .declare name none => ready tasks (st.define name .nil)
  | .declare name (some e) => evaluating e tasks st fun v st => ready tasks (st.define name v)
  | .block body => ready (body.map .run ++ .leave :: tasks) st.enter
  | .ifThen condition yes =>
    evaluating condition tasks st fun v st => ready (if v.truthy then .run yes :: tasks else tasks) st
  | .ifElse condition yes no =>
    evaluating condition tasks st fun v st => ready (.run (if v.truthy then yes else no) :: tasks) st
  | .loop condition body =>
    evaluating condition tasks st fun v st =>
      ready (if v.truthy then .run body :: .run (.loop condition body) :: tasks else tasks) st

def step : Machine → Machine
  | ready [] st => ended st.done
  | ready (.run s :: tasks) st => start tasks st s
  | ready (.leave :: tasks) st => ready tasks st.leave
  | writing _ [] tasks st => ready tasks st
  | writing keyword (text :: texts) tasks st =>
    match st.out.refusal? st.out.taken text with
    | some reason => fail ⟨keyword, .output reason⟩ tasks st
    | none => writing keyword texts tasks (st.wrote text)
  | ended ending => ended ending

/-- The machine that runs these statements, after `n` steps. -/
def after (body : List Stmt) (st : State) (n : Nat) : Machine :=
  step^[n] (ready (body.map .run) st)

/-- Goes on after the ending of a part. -/
def resume (tasks : List Task) : Ending → Machine
  | ⟨none, st⟩ => ready tasks st
  | ⟨some error, st⟩ => fail error tasks st

theorem evaluating_cases (e : Expr) (st : State) :
    (∃ v st', (∀ next, st.evaluating e next = next v st') ∧
      ∀ tasks next, evaluating e tasks st next = next v st') ∨
    ∃ error st', (∀ next, st.evaluating e next = some ⟨some error, st'⟩) ∧
      ∀ tasks next, evaluating e tasks st next = fail error tasks st' := by
  cases hr : (e.eval st.env).result with
  | ok v => exact .inl ⟨v, { st with env := (e.eval st.env).env },
      by simp [State.evaluating, hr], by simp [evaluating, hr]⟩
  | error error => exact .inr ⟨error, { st with env := (e.eval st.env).env },
      by simp [State.evaluating, hr], by simp [evaluating, hr]⟩

theorem step_writing (keyword : Token) (text : String) (texts : List String) (tasks : List Task)
    (st : State) : step (writing keyword (text :: texts) tasks st) =
      match st.out.refusal? st.out.taken text with
      | some reason => fail ⟨keyword, .output reason⟩ tasks st
      | none => writing keyword texts tasks (st.wrote text) := rfl

/-! ## From a run to steps -/

def Reaches (m m' : Machine) : Prop := ∃ n, step^[n] m = m'

theorem Reaches.refl (m : Machine) : Reaches m m := ⟨0, rfl⟩

theorem Reaches.of_step {m m' : Machine} (h : Reaches (step m) m') : Reaches m m' := by
  obtain ⟨n, hn⟩ := h
  exact ⟨n + 1, hn⟩

theorem Reaches.trans {m m' m'' : Machine} (h : Reaches m m') (h' : Reaches m' m'') :
    Reaches m m'' := by
  obtain ⟨n, rfl⟩ := h
  obtain ⟨n', rfl⟩ := h'
  exact ⟨n' + n, Function.iterate_add_apply step n' n m⟩

theorem reaches_writing (keyword : Token) (texts : List String) (tasks : List Task) (st : State) :
    Reaches (writing keyword texts tasks st) (resume tasks
      ⟨(st.out.writeAll texts).1.map fun reason => ⟨keyword, .output reason⟩,
        { st with out := (st.out.writeAll texts).2 }⟩) := by
  induction texts generalizing st with
  | nil => exact .of_step (.refl _)
  | cons text texts ih =>
    apply Reaches.of_step
    rw [step_writing, Sink.writeAll]
    cases st.out.refusal? st.out.taken text with
    | some reason => exact .refl _
    | none => exact ih (st.wrote text)

theorem unwind_run (body : List Stmt) (tasks : List Task) (st : State) :
    st.unwind (body.map .run ++ tasks) = st.unwind tasks := by
  induction body with
  | nil => rfl
  | cons s body ih => exact ih

theorem resume_error (body : List Stmt) (tasks : List Task) (error : RuntimeError) (st : State) :
    resume (body.map .run ++ tasks) ⟨some error, st⟩ = resume tasks ⟨some error, st⟩ := by
  rw [resume, fail, unwind_run, resume, fail]

theorem reaches_runAll {run : Stmt → State → Option Ending}
    (h : ∀ s st ending, run s st = some ending → ∀ tasks,
      Reaches (ready (.run s :: tasks) st) (resume tasks ending))
    {body : List Stmt} {st : State} {ending : Ending} (hrun : runAll run body st = some ending)
    (tasks : List Task) : Reaches (ready (body.map .run ++ tasks) st) (resume tasks ending) := by
  induction body generalizing st with
  | nil => cases hrun; exact .refl _
  | cons s body ih =>
    unfold runAll at hrun
    rcases hfirst : run s st with _ | ⟨_ | error, mid⟩
    · rw [hfirst] at hrun; cases hrun
    · rw [hfirst] at hrun; exact (h s st _ hfirst _).trans (ih hrun)
    · rw [hfirst] at hrun
      cases hrun
      rw [← resume_error body tasks]
      exact h s st _ hfirst _

theorem reaches_leave (tasks : List Task) (inside : Ending) :
    Reaches (resume (.leave :: tasks) inside) (resume tasks inside.leave) := by
  obtain ⟨_ | error, st⟩ := inside
  · exact .of_step (.refl _)
  · exact .refl _

theorem reaches_evaluating {e : Expr} {tasks : List Task} {st : State} {ending : Ending}
    {next : Value → State → Option Ending} {next' : Value → State → Machine}
    (h : st.evaluating e next = some ending)
    (hnext : ∀ v st, next v st = some ending → Reaches (next' v st) (resume tasks ending)) :
    Reaches (evaluating e tasks st next') (resume tasks ending) := by
  obtain ⟨v, st', hrun, hstep⟩ | ⟨error, st', hrun, hstep⟩ := evaluating_cases e st
  · rw [hrun] at h
    rw [hstep]
    exact hnext v st' h
  · rw [hrun] at h
    rw [hstep]
    cases h
    exact .refl _

theorem reaches_exec {n : Nat} {s : Stmt} {st : State} {ending : Ending}
    (h : s.exec n st = some ending) (tasks : List Task) :
    Reaches (ready (.run s :: tasks) st) (resume tasks ending) := by
  induction n generalizing s st ending tasks with
  | zero => cases h
  | succ n ih =>
    apply Reaches.of_step
    unfold Stmt.exec at h
    cases s with
    | expression e =>
      refine reaches_evaluating h fun v st hv => ?_
      cases hv
      exact .refl _
    | print keyword e =>
      refine reaches_evaluating h fun v st hv => ?_
      cases hv
      exact reaches_writing keyword _ tasks st
    | declare name init =>
      cases init with
      | none => cases h; exact .refl _
      | some e =>
        rw [step, start]
        refine reaches_evaluating h fun v st hv => ?_
        cases hv
        exact .refl _
    | block body =>
      obtain ⟨inside, hinside, rfl⟩ := Option.map_eq_some_iff.1 h
      exact (reaches_runAll (fun _ _ _ => ih) hinside _).trans (reaches_leave tasks inside)
    | ifThen condition yes =>
      refine reaches_evaluating h fun v st hv => ?_
      split at hv
      · rw [if_pos ‹_›]; exact ih hv tasks
      · rw [if_neg ‹_›]; cases hv; exact .refl _
    | ifElse condition yes no =>
      refine reaches_evaluating h fun v st hv => ?_
      split at hv
      · rw [if_pos ‹_›]; exact ih hv tasks
      · rw [if_neg ‹_›]; exact ih hv tasks
    | loop condition body =>
      refine reaches_evaluating h fun v st hv => ?_
      split at hv
      · rw [if_pos ‹_›]
        rcases hturn : body.exec n st with _ | ⟨_ | error, mid⟩
        · rw [hturn] at hv; cases hv
        · rw [hturn] at hv; exact (ih hturn _).trans (ih hv tasks)
        · rw [hturn] at hv
          cases hv
          exact ih hturn (.run (.loop condition body) :: tasks)
      · rw [if_neg ‹_›]; cases hv; exact .refl _

/-! ## From steps to a run -/

/-- A part of a run comes to an end for some bound, and the machine goes on from there to `ending`,
with at most `m` steps. -/
def Finishes (part : Nat → Option Ending) (tasks : List Task) (m : Nat) (ending : Ending) : Prop :=
  ∃ n x m', part n = some x ∧ m' ≤ m ∧ step^[m'] (resume tasks x) = ended ending

theorem finishes_writing {keyword : Token} {texts : List String} {tasks : List Task} {st : State}
    {m : Nat} {ending : Ending} (h : step^[m] (writing keyword texts tasks st) = ended ending) :
    ∃ m' ≤ m, step^[m'] (resume tasks
      ⟨(st.out.writeAll texts).1.map fun reason => ⟨keyword, .output reason⟩,
        { st with out := (st.out.writeAll texts).2 }⟩) = ended ending := by
  induction texts generalizing st m with
  | nil =>
    cases m with
    | zero => cases h
    | succ m => exact ⟨m, by omega, h⟩
  | cons text texts ih =>
    cases m with
    | zero => cases h
    | succ m =>
      rw [Function.iterate_succ_apply, step_writing] at h
      rw [Sink.writeAll]
      cases hrefusal : st.out.refusal? st.out.taken text with
      | some reason =>
        rw [hrefusal] at h
        exact ⟨m, by omega, h⟩
      | none =>
        rw [hrefusal] at h
        obtain ⟨m', hle, hend⟩ := ih h
        exact ⟨m', by omega, hend⟩

theorem finishes_evaluating {e : Expr} {tasks : List Task} {st : State} {m : Nat} {ending : Ending}
    {next : Nat → Value → State → Option Ending} {next' : Value → State → Machine}
    (h : step^[m] (evaluating e tasks st next') = ended ending)
    (hnext : ∀ v st, step^[m] (next' v st) = ended ending →
      Finishes (fun n => next n v st) tasks m ending) :
    Finishes (fun n => st.evaluating e (next n)) tasks m ending := by
  obtain ⟨v, st', hrun, hstep⟩ | ⟨error, st', hrun, hstep⟩ := evaluating_cases e st
  · rw [hstep] at h
    simp only [hrun]
    exact hnext v st' h
  · rw [hstep] at h
    exact ⟨0, _, m, hrun _, Nat.le_refl m, h⟩

theorem finishes_runAll {m : Nat} {ending : Ending} (ih : ∀ m' ≤ m, ∀ s st tasks,
      step^[m'] (ready (.run s :: tasks) st) = ended ending →
      Finishes (fun n => s.exec n st) tasks m' ending) {body : List Stmt} {st : State}
    {tasks : List Task} (h : step^[m] (ready (body.map .run ++ tasks) st) = ended ending) :
    Finishes (fun n => runAll (Stmt.exec n) body st) tasks m ending := by
  induction body generalizing st m with
  | nil => exact ⟨0, _, m, rfl, Nat.le_refl m, h⟩
  | cons s body ihbody =>
    obtain ⟨n, x, m', hfirst, hle, hrest⟩ := ih m (Nat.le_refl m) s st _ h
    obtain ⟨_ | error, mid⟩ := x
    · obtain ⟨n', x', m'', hbody, hle', hend⟩ :=
        ihbody (fun m'' hm'' => ih m'' (by omega)) hrest
      refine ⟨max n n', x', m'', ?_, by omega, hend⟩
      dsimp only
      rw [runAll, Stmt.exec_refines (Nat.le_max_left n n') s st _ hfirst]
      exact runAll_refines (Stmt.exec_refines (Nat.le_max_right n n')) hbody
    · refine ⟨n, ⟨some error, mid⟩, m', ?_, hle, ?_⟩
      · dsimp only at hfirst ⊢
        rw [runAll, hfirst]
      · rw [← resume_error body tasks]
        exact hrest

theorem finishes_leave {tasks : List Task} {inside ending : Ending} {m : Nat}
    (h : step^[m] (resume (.leave :: tasks) inside) = ended ending) :
    ∃ m' ≤ m, step^[m'] (resume tasks inside.leave) = ended ending := by
  obtain ⟨_ | error, st⟩ := inside
  · cases m with
    | zero => cases h
    | succ m => exact ⟨m, by omega, h⟩
  · exact ⟨m, Nat.le_refl m, h⟩

theorem finishes_exec {m : Nat} {s : Stmt} {st : State} {tasks : List Task} {ending : Ending}
    (h : step^[m] (ready (.run s :: tasks) st) = ended ending) :
    Finishes (fun n => s.exec n st) tasks m ending := by
  induction m using Nat.strongRecOn generalizing s st tasks with
  | ind m ih =>
    cases m with
    | zero => cases h
    | succ m =>
      rw [Function.iterate_succ_apply, step] at h
      suffices hsucc : Finishes (fun n => s.exec (n + 1) st) tasks m ending by
        obtain ⟨n, x, m', hexec, hle, hend⟩ := hsucc
        exact ⟨n + 1, x, m', hexec, by omega, hend⟩
      simp only [Stmt.exec]
      cases s with
      | expression e => 
        refine finishes_evaluating h fun v st hv => ?_
        exact ⟨0, _, m, rfl, Nat.le_refl m, hv⟩
      | print keyword e =>
        refine finishes_evaluating h fun v st hv => ?_
        obtain ⟨m', hle, hend⟩ := finishes_writing hv
        exact ⟨0, _, m', rfl, hle, hend⟩
      | declare name init =>
        cases init with
        | none => exact ⟨0, _, m, rfl, Nat.le_refl m, h⟩
        | some e =>
          rw [start] at h
          refine finishes_evaluating h fun v st hv => ?_
          exact ⟨0, _, m, rfl, Nat.le_refl m, hv⟩
      | block body =>
        obtain ⟨n, inside, m', hrun, hle, hend⟩ :=
          finishes_runAll (fun m' hm' _ _ _ => ih m' (by omega)) h
        obtain ⟨m'', hle', hend'⟩ := finishes_leave hend
        exact ⟨n, inside.leave, m'', congrArg (Option.map Ending.leave) hrun, by omega, hend'⟩
      | ifThen condition yes =>
        refine finishes_evaluating h fun v st hv => ?_
        split at hv
        · next htrue =>
          simp only [if_pos htrue]
          exact ih m (by omega) hv
        · next hfalse =>
          simp only [if_neg hfalse]
          exact ⟨0, _, m, rfl, Nat.le_refl m, hv⟩
      | ifElse condition yes no =>
        refine finishes_evaluating h fun v st hv => ?_
        split at hv
        · next htrue =>
          simp only [if_pos htrue]
          exact ih m (by omega) hv
        · next hfalse =>
          simp only [if_neg hfalse]
          exact ih m (by omega) hv
      | loop condition body =>
        refine finishes_evaluating h fun v st hv => ?_
        split at hv
        · next htrue =>
          simp only [if_pos htrue]
          obtain ⟨n, x, m', hturn, hle, hrest⟩ := ih m (by omega) hv
          obtain ⟨_ | error, mid⟩ := x
          · obtain ⟨n', x', m'', hloop, hle', hend⟩ := ih m' (by omega) hrest
            refine ⟨max n n', x', m'', ?_, by omega, hend⟩
            dsimp only at hturn hloop ⊢
            rw [Stmt.exec_refines (Nat.le_max_left n n') _ _ _ hturn]
            exact Stmt.exec_refines (Nat.le_max_right n n') _ _ _ hloop
          · refine ⟨n, ⟨some error, mid⟩, m', ?_, hle, hrest⟩
            dsimp only at hturn ⊢
            rw [hturn]
        · next hfalse =>
          simp only [if_neg hfalse]
          exact ⟨0, _, m, rfl, Nat.le_refl m, hv⟩

/-! ## Whole runs -/

@[simp] theorem iterate_ended (n : Nat) (ending : Ending) :
    step^[n] (ended ending) = ended ending :=
  Function.iterate_fixed rfl n

theorem resume_nil_ends (x : Ending) : ∃ m, step^[m] (resume [] x) = ended x := by
  obtain ⟨_ | error, st⟩ := x
  · exact ⟨1, rfl⟩
  · exact ⟨0, rfl⟩

theorem eq_of_ended {m : Machine} {k k' : Nat} {x ending : Ending} (h : step^[k] m = ended x)
    (h' : step^[k'] m = ended ending) : x = ending := by
  have hboth : step^[k' + k] m = ended x := by rw [Function.iterate_add_apply, h, iterate_ended]
  have hboth' : step^[k + k'] m = ended ending := by
    rw [Function.iterate_add_apply, h', iterate_ended]
  rw [Nat.add_comm, hboth] at hboth'
  cases hboth'
  rfl

theorem after_eq_ended_iff {body : List Stmt} {st : State} {ending : Ending} :
    (∃ n, interpret n body st = some ending) ↔ ∃ m, after body st m = ended ending := by
  constructor
  · rintro ⟨n, hn⟩
    have hreaches := reaches_runAll (fun _ _ _ => reaches_exec) hn []
    rw [List.append_nil] at hreaches
    exact hreaches.trans (resume_nil_ends ending)
  · rintro ⟨m, hm⟩
    rw [after, ← List.append_nil (body.map Task.run)] at hm
    obtain ⟨n, x, m', hrun, -, hend⟩ := finishes_runAll (fun _ _ _ _ _ => finishes_exec) hm
    obtain ⟨k, hk⟩ := resume_nil_ends x
    exact ⟨n, eq_of_ended hk hend ▸ hrun⟩

end Machine

end Treewalk
