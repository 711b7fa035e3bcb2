import Treewalk.Proofs.Eval.Machine
import Treewalk.Proofs.Eval.Scopes
import Treewalk.Token.Scan

/-!
# A write that is refused

Two runs of the same statements, one with a sink that may refuse a write and one with the same sink
made open, take the same steps up to the refused write. There the first run ends in an error at the
keyword of the statement that writes. It has written what the other run has written by then, and the
scopes that were opened since its start are closed.
-/

namespace Treewalk

/-- Refuses nothing. -/
def Sink.opened (out : Sink) : Sink := { taken := out.taken }

def State.opened (st : State) : State := { st with out := st.out.opened }

def Ending.opened (x : Ending) : Ending := { x with state := x.state.opened }

namespace Machine

def opened : Machine → Machine
  | ready tasks st => ready tasks st.opened
  | writing keyword texts tasks st => writing keyword texts tasks st.opened
  | ended x => ended x.opened

def out : Machine → Sink
  | ready _ st | writing _ _ _ st | ended ⟨_, st⟩ => st.out

/-- The error that the next step ends in, if it is a write that is refused. -/
def refusal? : Machine → Option RuntimeError
  | writing keyword (text :: _) _ st =>
    (st.out.refusal? st.out.taken text).map fun reason => ⟨keyword, .output reason⟩
  | _ => none

/-! ## What a step can do -/

theorem evaluating_depth (e : Expr) (st : State) :
    (∃ v env, env.depth = st.env.depth ∧ e.eval st.env = ⟨.ok v, env⟩ ∧
      ∀ tasks next, evaluating e tasks st next = next v { st with env }) ∨
    ∃ error env, env.depth = st.env.depth ∧
      ∀ tasks next, evaluating e tasks st next = fail error tasks { st with env } := by
  have hdepth := (e.eval_keeps st.env).grows.depth
  unfold evaluating
  revert hdepth
  rcases e.eval st.env with ⟨error | v, env⟩ <;> intro hdepth
  · exact .inr ⟨error, env, hdepth, fun _ _ => rfl⟩
  · exact .inl ⟨v, env, hdepth, rfl, fun _ _ => rfl⟩

theorem start_cases (tasks : List Task) (st : State) (s : Stmt) :
    (∃ (error : RuntimeError) (env : Environment), env.depth = st.env.depth ∧
      start tasks st s = fail error tasks { st with env }) ∨
    (∃ (more : List Stmt) (env : Environment), env.depth = st.env.depth ∧
      start tasks st s = ready (more.map .run ++ tasks) { st with env }) ∨
    (∃ (keyword : Token) (e : Expr) (v : Value) (env : Environment), env.depth = st.env.depth ∧
      s = .print keyword e ∧
      e.eval st.env = ⟨.ok v, env⟩ ∧
      start tasks st s = writing keyword (Sink.lineWrites v.display) tasks { st with env }) ∨
    ∃ body : List Stmt, start tasks st s = ready (body.map .run ++ .leave :: tasks) st.enter := by
  have hdefine (name : Token) (v : Value) (env : Environment) :
      (env.define name.lexeme v).depth = env.depth := by
    have hgrows : Environment.Grows [] env _ := Environment.grows_define name.lexeme v env
    exact hgrows.depth
  cases s with
  | expression e =>
    obtain ⟨v, env, hdepth, -, heval⟩ | ⟨error, env, hdepth, heval⟩ := evaluating_depth e st
    · exact .inr (.inl ⟨[], env, hdepth, heval _ _⟩)
    · exact .inl ⟨error, env, hdepth, heval _ _⟩
  | print keyword e =>
    obtain ⟨v, env, hdepth, hv, heval⟩ | ⟨error, env, hdepth, heval⟩ := evaluating_depth e st
    · exact .inr (.inr (.inl ⟨keyword, e, v, env, hdepth, rfl, hv, heval _ _⟩))
    · exact .inl ⟨error, env, hdepth, heval _ _⟩
  | declare name init =>
    cases init with
    | none => exact .inr (.inl ⟨[], _, hdefine name .nil st.env, rfl⟩)
    | some e =>
      rw [start]
      obtain ⟨v, env, hdepth, -, heval⟩ | ⟨error, env, hdepth, heval⟩ := evaluating_depth e st
      · exact .inr (.inl ⟨[], _, (hdefine name v env).trans hdepth, heval _ _⟩)
      · exact .inl ⟨error, env, hdepth, heval _ _⟩
  | block body => exact .inr (.inr (.inr ⟨body, rfl⟩))
  | ifThen condition yes =>
    obtain ⟨v, env, hdepth, -, heval⟩ | ⟨error, env, hdepth, heval⟩ := evaluating_depth condition st
    · refine .inr (.inl ⟨if v.truthy then [yes] else [], env, hdepth, (heval _ _).trans ?_⟩)
      cases v.truthy <;> rfl
    · exact .inl ⟨error, env, hdepth, heval _ _⟩
  | ifElse condition yes no =>
    obtain ⟨v, env, hdepth, -, heval⟩ | ⟨error, env, hdepth, heval⟩ := evaluating_depth condition st
    · exact .inr (.inl ⟨[if v.truthy then yes else no], env, hdepth, heval _ _⟩)
    · exact .inl ⟨error, env, hdepth, heval _ _⟩
  | loop condition body =>
    obtain ⟨v, env, hdepth, -, heval⟩ | ⟨error, env, hdepth, heval⟩ := evaluating_depth condition st
    · refine .inr (.inl ⟨if v.truthy then [body, .loop condition body] else [], env, hdepth,
        (heval _ _).trans ?_⟩)
      cases v.truthy <;> rfl
    · exact .inl ⟨error, env, hdepth, heval _ _⟩

/-! ## Scopes -/

/-- How many scopes the tasks close. -/
def scopes : List Task → Nat
  | [] => 0
  | .run _ :: tasks => scopes tasks
  | .leave :: tasks => scopes tasks + 1

@[simp] theorem scopes_run (body : List Stmt) (tasks : List Task) :
    scopes (body.map .run ++ tasks) = scopes tasks := by
  induction body with
  | nil => rfl
  | cons s body ih => exact ih

/-- Besides `d` scopes those are open that the tasks close. -/
def Balanced (d : Nat) : Machine → Prop
  | ready tasks st | writing _ _ tasks st => st.env.depth = scopes tasks + d
  | ended x => x.state.env.depth = d

theorem depth_leave {st : State} (h : 1 < st.env.depth) :
    st.leave.env.depth + 1 = st.env.depth := by
  simp only [State.leave, Environment.pop, Environment.depth, List.length_tail] at h ⊢
  omega

theorem frames_unwind {tasks : List Task} {st : State} (h : scopes tasks < st.env.depth) :
    (st.unwind tasks).env.frames = st.env.frames.drop (scopes tasks) := by
  induction tasks generalizing st with
  | nil => rfl
  | cons task tasks ih =>
    cases task with
    | run s => exact ih h
    | leave =>
      have hopen : 1 < st.env.depth := by
        rw [scopes] at h
        omega
      have hframes : st.leave.env.frames = st.env.frames.tail := Environment.frames_pop hopen
      have hdepth := depth_leave hopen
      rw [State.unwind, ih (by rw [scopes] at h; omega), hframes, scopes, List.drop_tail]

theorem depth_unwind {tasks : List Task} {st : State} {d : Nat}
    (h : st.env.depth = scopes tasks + (d + 1)) : (st.unwind tasks).env.depth = d + 1 := by
  have hopen : scopes tasks < st.env.depth := by omega
  have hframes := congrArg List.length (frames_unwind hopen)
  simp only [Environment.frames, Environment.depth, List.length_append, List.length_singleton,
    List.length_drop] at hframes h ⊢
  omega

theorem balanced_step {m : Machine} {d : Nat} (h : m.Balanced (d + 1)) :
    (step m).Balanced (d + 1) := by
  match m, h with
  | ready [] st, h => rwa [Balanced, scopes, Nat.zero_add] at h
  | ready (.leave :: tasks) st, h =>
    rw [Balanced, scopes] at h
    have hopen : 1 < st.env.depth := by omega
    have hdepth := depth_leave hopen
    rw [step, Balanced]
    omega
  | ready (.run s :: tasks) st, h =>
    rw [step]
    obtain ⟨error, env, hdepth, hstart⟩ | ⟨more, env, hdepth, hstart⟩ |
      ⟨keyword, e, v, env, hdepth, -, -, hstart⟩ | ⟨body, hstart⟩ := start_cases tasks st s
    · rw [hstart]
      exact depth_unwind (hdepth.trans h)
    · rw [hstart, Balanced, scopes_run]
      exact hdepth.trans h
    · rw [hstart]
      exact hdepth.trans h
    · have hdepth : st.enter.env.depth = st.env.depth + 1 := rfl
      rw [hstart, Balanced, scopes_run, scopes, hdepth, show st.env.depth = _ from h, scopes]
      omega
  | writing keyword [] tasks st, h => exact h
  | writing keyword (text :: texts) tasks st, h =>
    rw [step_writing]
    split
    · exact depth_unwind h
    · exact h
  | ended x, h => exact h

/-! ## Output -/

theorem out_fail (error : RuntimeError) (tasks : List Task) (st : State) :
    (fail error tasks st).out = st.out := by
  change (st.unwind tasks).out = st.out
  fun_induction State.unwind tasks st with
  | case1 => rfl
  | case2 _ _ _ ih => exact ih
  | case3 _ _ ih => exact ih

theorem taken_step (m : Machine) : m.out.taken <:+ (step m).out.taken := by
  match m with
  | ready [] st => exact List.suffix_rfl
  | ready (.leave :: tasks) st => exact List.suffix_rfl
  | ready (.run s :: tasks) st =>
    rw [step]
    obtain ⟨error, env, -, hstart⟩ | ⟨more, env, -, hstart⟩ | ⟨keyword, e, v, env, -, -, -, hstart⟩ |
      ⟨body, hstart⟩ := start_cases tasks st s
    · rw [hstart, out_fail]
      exact List.suffix_rfl
    · rw [hstart]
      exact List.suffix_rfl
    · rw [hstart]
      exact List.suffix_rfl
    · rw [hstart]
      exact List.suffix_rfl
  | writing keyword [] tasks st => exact List.suffix_rfl
  | writing keyword (text :: texts) tasks st =>
    rw [step_writing]
    split
    · rw [out_fail]
      exact List.suffix_rfl
    · exact List.suffix_cons text st.out.taken
  | ended x => exact List.suffix_rfl

theorem taken_iterate (m : Machine) (n : Nat) : m.out.taken <:+ (step^[n] m).out.taken := by
  induction n with
  | zero => exact List.suffix_rfl
  | succ n ih =>
    rw [Function.iterate_succ_apply']
    exact ih.trans (taken_step _)

/-! ## In step -/

theorem opened_fail (error : RuntimeError) (tasks : List Task) (st : State) :
    (fail error tasks st).opened = fail error tasks st.opened := by
  have hunwind : (st.unwind tasks).opened = st.opened.unwind tasks := by
    fun_induction State.unwind tasks st with
    | case1 => rfl
    | case2 _ _ _ ih => exact ih
    | case3 _ _ ih => exact ih
  rw [fail, opened, Ending.opened, hunwind, fail]

theorem opened_evaluating (e : Expr) (tasks : List Task) (st : State)
    {next next' : Value → State → Machine} (h : ∀ v st, (next v st).opened = next' v st.opened) :
    (evaluating e tasks st next).opened = evaluating e tasks st.opened next' := by
  have henv : e.eval st.opened.env = e.eval st.env := rfl
  unfold evaluating
  dsimp only
  rw [henv]
  cases (e.eval st.env).result with
  | ok v => exact h v _
  | error error => exact opened_fail error tasks _

theorem opened_start (tasks : List Task) (st : State) (s : Stmt) :
    (start tasks st s).opened = start tasks st.opened s := by
  cases s with
  | expression e => exact opened_evaluating e tasks st fun _ _ => rfl
  | print keyword e => exact opened_evaluating e tasks st fun _ _ => rfl
  | declare name init =>
    cases init with
    | none => rfl
    | some e =>
      rw [start, start]
      exact opened_evaluating e tasks st fun _ _ => rfl
  | block body => rfl
  | ifThen condition yes => exact opened_evaluating condition tasks st fun _ _ => rfl
  | ifElse condition yes no => exact opened_evaluating condition tasks st fun _ _ => rfl
  | loop condition body => exact opened_evaluating condition tasks st fun _ _ => rfl

/-- A step that is no refused write is the same whether the sink is open or not. -/
theorem opened_step {m : Machine} (h : m.refusal? = none) : (step m).opened = step m.opened := by
  match m, h with
  | ready [] st, _ => rfl
  | ready (.leave :: tasks) st, _ => rfl
  | ready (.run s :: tasks) st, _ => exact opened_start tasks st s
  | writing keyword [] tasks st, _ => rfl
  | writing keyword (text :: texts) tasks st, h =>
    have hnone : st.out.refusal? st.out.taken text = none := Option.map_eq_none_iff.1 h
    rw [step_writing, hnone]
    rfl
  | ended x, _ => rfl

theorem opened_iterate {m : Machine} {n : Nat} (h : ∀ k < n, (step^[k] m).refusal? = none) :
    (step^[n] m).opened = step^[n] m.opened := by
  induction n with
  | zero => rfl
  | succ n ih =>
    rw [Function.iterate_succ_apply', Function.iterate_succ_apply',
      opened_step (h n (Nat.lt_succ_self n)), ih fun k hk => h k (Nat.lt_succ_of_lt hk)]

/-! ## The statement that writes -/

theorem step_eq_writing {m : Machine} {keyword : Token} {texts : List String} {tasks : List Task}
    {now : State} (h : step m = writing keyword texts tasks now) :
    (∃ e v before, m = ready (.run (.print keyword e) :: tasks) before ∧
      e.eval before.env = ⟨.ok v, now.env⟩ ∧ texts = Sink.lineWrites v.display ∧
      now.out = before.out) ∨
    ∃ text before, m = writing keyword (text :: texts) tasks before ∧ now = before.wrote text := by
  cases m with
  | ready tasks' st =>
    cases tasks' with
    | nil => cases h
    | cons task tasks' =>
      cases task with
      | leave => cases h
      | run s =>
        rw [step] at h
        obtain ⟨error, env, -, hstart⟩ | ⟨more, env, -, hstart⟩ |
          ⟨keyword', e, v, env, -, rfl, hv, hstart⟩ | ⟨body, hstart⟩ := start_cases tasks' st s <;>
          rw [hstart] at h <;> cases h
        exact .inl ⟨e, v, st, rfl, hv, rfl, rfl⟩
  | writing keyword' texts' tasks' st =>
    cases texts' with
    | nil => cases h
    | cons text texts' =>
      rw [step_writing] at h
      split at h <;> cases h
      exact .inr ⟨text, st, rfl, rfl⟩
  | ended x => cases h

theorem exists_print {body : List Stmt} {st : State} {n : Nat} {keyword : Token}
    {texts : List String} {tasks : List Task} {now : State}
    (h : after body st n = writing keyword texts tasks now) :
    ∃ k < n, ∃ e v before done, after body st k = ready (.run (.print keyword e) :: tasks) before ∧
      e.eval before.env = ⟨.ok v, now.env⟩ ∧ Sink.lineWrites v.display = done ++ texts ∧
      now.out = { before.out with taken := done.reverse ++ before.out.taken } := by
  induction n generalizing texts now with
  | zero => cases h
  | succ n ih =>
    rw [after, Function.iterate_succ_apply'] at h
    obtain ⟨e, v, before, hbefore, hv, rfl, hout⟩ | ⟨text, before, hbefore, rfl⟩ :=
      step_eq_writing h
    · exact ⟨n, Nat.lt_succ_self n, e, v, before, [], hbefore, hv, rfl, hout⟩
    · obtain ⟨k, hk, e, v, first, done, hfirst, hv, hline, hout⟩ := ih hbefore
      refine ⟨k, Nat.lt_succ_of_lt hk, e, v, first, done ++ [text], hfirst, hv, ?_, ?_⟩
      · rw [hline, List.append_assoc, List.singleton_append]
      · simp [State.wrote, hout]

/-! ## The refused write -/

theorem after_add (body : List Stmt) (st : State) (k n : Nat) :
    after body st (k + n) = step^[k] (after body st n) :=
  Function.iterate_add_apply step k n _

theorem after_of_refusal? {body : List Stmt} {st : State} {n : Nat} {error : RuntimeError}
    (h : (after body st n).refusal? = some error) : ∃ text texts tasks now reason,
      after body st n = writing error.token (text :: texts) tasks now ∧
      now.out.refusal? now.out.taken text = some reason ∧ error.cause = .output reason ∧
      ∀ k, after body st (k + 1 + n) = fail error tasks now := by
  cases hm : after body st n with
  | writing keyword texts tasks now =>
    rw [hm] at h
    cases texts with
    | nil => cases h
    | cons text texts =>
      obtain ⟨reason, hreason, rfl⟩ := Option.map_eq_some_iff.1 h
      refine ⟨text, texts, tasks, now, reason, rfl, hreason, rfl, fun k => ?_⟩
      rw [after_add, Function.iterate_succ_apply, hm, step_writing, hreason]
      exact iterate_ended k _
  | ready tasks now => rw [hm] at h; cases h
  | ended ending => rw [hm] at h; cases h

theorem refusal?_eq_none {body : List Stmt} {st : State} {n k : Nat} {error : RuntimeError}
    (h : (after body st n).refusal? = some error) (hk : k < n) :
    (after body st k).refusal? = none := by
  rw [Option.eq_none_iff_forall_ne_some]
  intro earlier hearlier
  obtain ⟨-, -, tasks, now, -, -, -, -, hlater⟩ := after_of_refusal? hearlier
  obtain ⟨i, rfl⟩ : ∃ i, n = i + 1 + k := ⟨n - k - 1, by omega⟩
  rw [hlater i] at h
  cases h

theorem contents_append {out out' : Sink} (h : out.taken <:+ out'.taken) :
    ∃ more, out'.contents = out.contents ++ more := by
  obtain ⟨new, hnew⟩ := h
  refine ⟨String.join new.reverse, ?_⟩
  rw [Sink.contents, ← hnew, List.reverse_append, String.join_append, Sink.contents]

/-- The run of `body` from `st` is cut at step `n`, in the state `now`, where a write is refused. -/
structure CutAt (body : List Stmt) (st : State) (n : Nat) (error : RuntimeError) (now : State) :
    Prop where
  /-- Up to here the run that nothing is refused took the same steps. -/
  same : ∀ k ≤ n, (after body st k).opened = after body st.opened k
  /-- The write belongs to the line of the statement that is blamed, after other writes of it. -/
  blames : ∃ k < n, ∃ e v before tasks done text texts reason,
    after body st k = ready (.run (.print error.token e) :: tasks) before ∧
    e.eval before.env = ⟨.ok v, now.env⟩ ∧
    Sink.lineWrites v.display = done ++ text :: texts ∧
    now.out = { before.out with taken := done.reverse ++ before.out.taken } ∧
    after body st n = writing error.token (text :: texts) tasks now ∧
    now.out.refusal? now.out.taken text = some reason ∧ error.cause = .output reason
  /-- The run ends there, with the scopes closed that it opened. -/
  ends : ∃ env, (∃ bound, interpret bound body st = some ⟨some error, ⟨env, now.out⟩⟩) ∧
    env.depth = st.env.depth ∧ env.frames = now.env.frames.drop (now.env.depth - st.env.depth)
  /-- Nothing more is written. -/
  silent : ∀ k ≥ n, (after body st k).out = now.out
  /-- What was written is a first part of what the other run writes, whether it ends or not. -/
  starts : (∀ k ≥ n, ∃ more, (after body st.opened k).out.contents = now.out.contents ++ more) ∧
    ∀ bound ending, interpret bound body st.opened = some ending →
      ∃ more, ending.state.out.contents = now.out.contents ++ more

theorem balanced_after (body : List Stmt) (st : State) (n : Nat) :
    (after body st n).Balanced st.env.depth := by
  induction n with
  | zero =>
    have hscopes := scopes_run body []
    rw [List.append_nil] at hscopes
    change st.env.depth = scopes (body.map .run) + st.env.depth
    rw [hscopes, scopes, Nat.zero_add]
  | succ n ih =>
    rw [after, Function.iterate_succ_apply']
    exact balanced_step ih

theorem exists_cutAt {body : List Stmt} {st : State} {n : Nat} {error : RuntimeError}
    (h : (after body st n).refusal? = some error) : ∃ now, CutAt body st n error now := by
  obtain ⟨text, texts, tasks, now, reason, hnow, hreason, hcause, hlater⟩ := after_of_refusal? h
  have hsame (k : Nat) (hk : k ≤ n) : (after body st k).opened = after body st.opened k :=
    opened_iterate fun i hi => refusal?_eq_none h (by omega)
  have hstarts (k : Nat) (hk : n ≤ k) :
      ∃ more, (after body st.opened k).out.contents = now.out.contents ++ more := by
    obtain ⟨i, rfl⟩ := Nat.exists_eq_add_of_le' hk
    have htaken := taken_iterate (after body st.opened n) i
    rw [← after_add, ← hsame n (Nat.le_refl n), hnow] at htaken
    exact contents_append htaken
  refine ⟨now, hsame, ?_, ?_, fun k hk => ?_, hstarts, fun bound ending hending => ?_⟩
  · obtain ⟨k, hk, e, v, before, done, hbefore, hv, hline, hout⟩ := exists_print hnow
    exact ⟨k, hk, e, v, before, tasks, done, text, texts, reason, hbefore, hv, hline, hout, hnow,
      hreason, hcause⟩
  · have hbalanced : now.env.depth = scopes tasks + st.env.depth := by
      have hbalanced := balanced_after body st n
      rwa [hnow] at hbalanced
    have hout : (now.unwind tasks).out = now.out := out_fail error tasks now
    have hopen : scopes tasks < now.env.depth := by
      rw [hbalanced]
      exact Nat.lt_add_of_pos_right (Nat.succ_pos _)
    refine ⟨(now.unwind tasks).env, ?_, depth_unwind hbalanced, ?_⟩
    · rw [← hout]
      exact after_eq_ended_iff.2 ⟨0 + 1 + n, hlater 0⟩
    · rw [frames_unwind hopen, hbalanced, Nat.add_sub_cancel]
  · obtain ⟨i, rfl⟩ := Nat.exists_eq_add_of_le' hk
    cases i with
    | zero => rw [Nat.zero_add, hnow]; rfl
    | succ i => rw [hlater i, out_fail]
  · obtain ⟨m, hm⟩ := after_eq_ended_iff.1 ⟨bound, hending⟩
    obtain ⟨more, hmore⟩ := hstarts (n + m) (Nat.le_add_right n m)
    rw [after_add, hm, iterate_ended] at hmore
    exact ⟨more, hmore⟩

end Machine

open Machine in
/-- A run takes the same steps as the run with the sink made open, up to a write that is refused,
which cuts it. -/
theorem refusal_only_truncates (body : List Stmt) (st : State) :
    (∀ st ending, (∃ bound, interpret bound body st = some ending) ↔
      ∃ n, after body st n = ended ending) ∧
    (∀ n, (∀ k < n, (after body st k).refusal? = none) →
      (after body st n).opened = after body st.opened n) ∧
    ((∀ n, (after body st n).refusal? = none) → ∀ ending',
      (∃ bound, interpret bound body st.opened = some ending') ↔
        ∃ ending, (∃ bound, interpret bound body st = some ending) ∧ ending.opened = ending') ∧
    ∀ n error, (after body st n).refusal? = some error → ∃ now, CutAt body st n error now := by
  refine ⟨fun st ending => after_eq_ended_iff, fun n => opened_iterate, fun hnone ending' => ?_,
    fun n error => exists_cutAt⟩
  have hsame (n : Nat) : (after body st n).opened = after body st.opened n :=
    opened_iterate fun k _ => hnone k
  simp only [after_eq_ended_iff, ← hsame]
  constructor
  · rintro ⟨n, hn⟩
    cases hm : after body st n with
    | ended ending =>
      rw [hm] at hn
      cases hn
      exact ⟨ending, ⟨n, hm⟩, rfl⟩
    | ready tasks now => rw [hm] at hn; cases hn
    | writing keyword texts tasks now => rw [hm] at hn; cases hn
  · rintro ⟨ending, ⟨n, hn⟩, rfl⟩
    exact ⟨n, by rw [hn]; rfl⟩

open Machine in
theorem refusal_only_truncates_in_block : ∃ error now,
    error.line = 2 ∧ error.cause = .output "pipe closed" ∧
    CutAt (parse (scan "scream \"a\";\n\x7b scream \"b\"; \x7d").tokens).statements
      { out := Sink.closingAfter 1 "pipe closed" } 6 error now := by
  have hrefused : (after (parse (scan "scream \"a\";\n\x7b scream \"b\"; \x7d").tokens).statements
      { out := Sink.closingAfter 1 "pipe closed" } 6).refusal?.any fun error =>
        error.line = 2 && error.cause = .output "pipe closed" := by
    decide +kernel
  obtain ⟨error, herror, hplace⟩ := (Option.any_eq_true _ _).1 hrefused
  rw [Bool.and_eq_true, decide_eq_true_eq, decide_eq_true_eq] at hplace
  obtain ⟨now, hnow⟩ := (refusal_only_truncates _ _).2.2.2 6 error herror
  exact ⟨error, now, hplace.1, hplace.2, hnow⟩

end Treewalk
