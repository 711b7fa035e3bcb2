import Treewalk.Proofs.Eval.Dispatch
import Treewalk.Proofs.Eval.Running

/-!
# Which token is blamed

A runtime error blames the token of the node that failed. So the kind of the token says what can
have gone wrong there, and the name in an error about a variable is the one that stands there.
-/

namespace Treewalk

/-- The token is of a kind that fails for this cause. -/
def RuntimeError.Fits (e : RuntimeError) : Prop :=
  match e.cause with
  | .undefinedVariable name => e.token.kind = .identifier ∧ e.token.lexeme = name
  | .operandNotNumber => e.token.kind = .minus
  | .invalidAddOperands => e.token.kind = .plus
  | .divisionByZero => e.token.kind = .slash
  | .invalidRepeatCount | .repeatTooLarge => e.token.kind = .star
  | .operandsNotNumbers =>
    e.token.kind ∈ [.minus, .star, .slash, .greater, .greaterEqual, .less, .lessEqual]
  | .output _ => e.token.kind = .printKw

open RuntimeError (Cause)

/-! ## Operators -/

theorem UnaryOp.fits_of_apply {op : UnaryOp} {v : Value} {cause : Cause} {t : Token}
    (h : op.apply v = .error cause) (ht : t.kind = op.kind) : RuntimeError.Fits ⟨t, cause⟩ := by
  cases op with
  | not => cases h
  | negate => cases v <;> cases h <;> exact ht

theorem cause_of_repeatString {s : String} {count : Float} {cause : Cause}
    (h : repeatString s count = .error cause) :
    cause = .invalidRepeatCount ∨ cause = .repeatTooLarge := by
  unfold repeatString at h
  dsimp only at h
  split at h
  · cases h; exact .inl rfl
  split at h
  · cases h
  split at h
  · cases h; exact .inr rfl
  split at h
  · split at h <;> cases h
    exact .inr rfl
  · cases h; exact .inr rfl

theorem BinaryOp.cause_of_onNumbers {f : Float → Float → Value} {a b : Value} {cause : Cause}
    (h : onNumbers f a b = .error cause) : cause = .operandsNotNumbers := by
  unfold onNumbers at h
  split at h <;> cases h
  rfl

theorem BinaryOp.cause_of_sum {a b : Value} {cause : Cause} (h : sum a b = .error cause) :
    cause = .invalidAddOperands := by
  unfold sum at h
  split at h <;> cases h
  rfl

theorem BinaryOp.cause_of_quotient {a b : Value} {cause : Cause} (h : quotient a b = .error cause) :
    cause = .divisionByZero ∨ cause = .operandsNotNumbers := by
  unfold quotient at h
  split at h
  · cases h; exact .inl rfl
  · exact .inr (cause_of_onNumbers h)

theorem BinaryOp.cause_of_product {a b : Value} {cause : Cause} (h : product a b = .error cause) :
    cause = .invalidRepeatCount ∨ cause = .repeatTooLarge ∨ cause = .operandsNotNumbers := by
  unfold product at h
  split at h
  · cases h
  · exact (cause_of_repeatString h).imp_right .inl
  · exact (cause_of_repeatString h).imp_right .inl
  · cases h; exact .inr (.inr rfl)

theorem BinaryOp.fits_of_apply {op : BinaryOp} {a b : Value} {cause : Cause} {t : Token}
    (h : op.apply a b = .error cause) (ht : t.kind = op.kind) : RuntimeError.Fits ⟨t, cause⟩ := by
  cases op with
  | add =>
    obtain rfl := cause_of_sum h
    exact ht
  | multiply =>
    obtain rfl | rfl | rfl := cause_of_product h
    · exact ht
    · exact ht
    · simp [RuntimeError.Fits, ht, kind]
  | divide =>
    obtain rfl | rfl := cause_of_quotient h
    · exact ht
    · simp [RuntimeError.Fits, ht, kind]
  | equal | notEqual => cases h
  | subtract | greater | greaterEqual | less | lessEqual =>
    obtain rfl := cause_of_onNumbers h
    simp [RuntimeError.Fits, ht, kind]

/-! ## Expressions -/

/-- An error, if there is one, fits its token. -/
def Evaluated.Fits (x : Evaluated) : Prop := ∀ e, x.result = .error e → e.Fits

theorem Evaluated.fits_andThen {x : Evaluated} {next : Value → Environment → Evaluated}
    (hx : x.Fits) (hnext : ∀ v env, (next v env).Fits) : (x.andThen next).Fits := by
  obtain ⟨result, env⟩ := x
  cases result with
  | ok v => exact hnext v env
  | error e => exact hx

theorem fits_blame {t : Token} {r : Except Cause Value} {env : Environment}
    (h : ∀ cause, r = .error cause → RuntimeError.Fits ⟨t, cause⟩) :
    Evaluated.Fits ⟨blame t r, env⟩ := by
  intro e he
  cases r with
  | ok v => cases he
  | error cause => cases he; exact h cause rfl

theorem fits_undefined {name : Token} (h : name.kind = .identifier) : (undefined name).Fits :=
  ⟨h, rfl⟩

theorem Expr.fits_eval {e : Expr} (h : ∀ node ∈ e.nodes, node.Tagged) (env : Environment) :
    (e.eval env).Fits := by
  induction e generalizing env with
  | literal v => exact fun e he => by cases he
  | grouping inner ih => exact ih (List.forall_mem_cons.1 h).2 env
  | unary op t operand ih =>
    obtain ⟨htag, hoperand⟩ := List.forall_mem_cons.1 h
    refine Evaluated.fits_andThen (ih hoperand env) fun v env => fits_blame fun cause hcause => ?_
    exact UnaryOp.fits_of_apply hcause htag.1
  | binary op t left right ihl ihr =>
    obtain ⟨htag, hboth⟩ := List.forall_mem_cons.1 h
    obtain ⟨hleft, hright⟩ := List.forall_mem_append.1 hboth
    refine Evaluated.fits_andThen (ihl hleft env) fun a env =>
      Evaluated.fits_andThen (ihr hright env) fun b env => fits_blame fun cause hcause => ?_
    exact BinaryOp.fits_of_apply hcause htag.1
  | logical op t left right ihl ihr =>
    obtain ⟨-, hboth⟩ := List.forall_mem_cons.1 h
    obtain ⟨hleft, hright⟩ := List.forall_mem_append.1 hboth
    refine Evaluated.fits_andThen (ihl hleft env) fun a env => ?_
    split
    · exact fun e he => by cases he
    · exact ihr hright env
  | var name =>
    have hname := (List.forall_mem_singleton.1 h).2
    intro e he
    unfold eval at he
    split at he <;> cases he
    exact fits_undefined hname
  | assign name value ih =>
    obtain ⟨htag, hvalue⟩ := List.forall_mem_cons.1 h
    refine Evaluated.fits_andThen (ih hvalue env) fun v env e he => ?_
    split at he <;> cases he
    exact fits_undefined htag.2

theorem Expr.Parsed.fits_eval {e : Expr} (h : e.Parsed) (env : Environment) :
    (e.eval env).Fits := by
  obtain ⟨ts, bad, hderives⟩ := h
  exact Expr.fits_eval (hderives.tagged trivial) env

/-! ## Statements -/

def Ending.Fits (ending : Ending) : Prop := ∀ e, ending.error = some e → e.Fits

theorem State.fits_done (st : State) : st.done.Fits := by
  intro e he
  cases he

theorem State.fits_evaluating {st : State} {e : Expr} {next : Value → State → Option Ending}
    {ending : Ending} (he : e.Parsed) (h : st.evaluating e next = some ending)
    (hnext : ∀ v st, next v st = some ending → ending.Fits) : ending.Fits := by
  obtain ⟨v, -, hv⟩ | ⟨error, herror, rfl⟩ := State.evaluating_cases h
  · exact hnext v _ hv
  · intro e' he'
    cases he'
    exact he.fits_eval _ _ herror

theorem State.fits_shown {keyword : Token} (h : keyword.kind = .printKw) (v : Value) (st : State) :
    (st.shown keyword v).Fits := by
  intro e he
  obtain ⟨reason, -, rfl⟩ := Option.map_eq_some_iff.1 he
  exact h

theorem fits_runAll {run : Stmt → State → Option Ending} {body : List Stmt}
    (h : ∀ s ∈ body, ∀ st ending, run s st = some ending → ending.Fits) {st : State}
    {ending : Ending} (hrun : runAll run body st = some ending) : ending.Fits := by
  induction body generalizing st with
  | nil => cases hrun; exact st.fits_done
  | cons s body ih =>
    obtain ⟨hs, hbody⟩ := List.forall_mem_cons.1 h
    unfold runAll at hrun
    rcases hfirst : run s st with _ | ⟨_ | error, mid⟩
    · rw [hfirst] at hrun; cases hrun
    · rw [hfirst] at hrun; exact ih hbody hrun
    · rw [hfirst] at hrun; cases hrun; exact hs st _ hfirst

theorem Stmt.fits_exec {s : Stmt} (hs : s.Declared) {n : Nat} {st : State} {ending : Ending}
    (h : s.exec n st = some ending) : ending.Fits := by
  induction n generalizing s st ending with
  | zero => cases h
  | succ n ih =>
    unfold exec at h
    cases hs with
    | @declare name init _ hinit =>
      cases init with
      | none => cases h; exact State.fits_done _
      | some e =>
        refine State.fits_evaluating (hinit e rfl) h fun v st hv => ?_
        cases hv
        exact State.fits_done _
    | statement hs =>
      cases hs with
      | expression he =>
        refine State.fits_evaluating he h fun v st hv => ?_
        cases hv
        exact State.fits_done _
      | print hk he =>
        refine State.fits_evaluating he h fun v st hv => ?_
        cases hv
        exact st.fits_shown hk v
      | block hbody =>
        obtain ⟨inside, hinside, rfl⟩ := Option.map_eq_some_iff.1 h
        have hfits : inside.Fits := fits_runAll (fun s hs _ _ hrun => ih (hbody s hs) hrun) hinside
        exact hfits
      | ifThen he hyes =>
        refine State.fits_evaluating he h fun v st hv => ?_
        split at hv
        · exact ih (.statement hyes) hv
        · cases hv; exact st.fits_done
      | ifElse he hyes hno =>
        refine State.fits_evaluating he h fun v st hv => ?_
        split at hv
        · exact ih (.statement hyes) hv
        · exact ih (.statement hno) hv
      | @loop condition body he hbody =>
        refine State.fits_evaluating he h fun v st hv => ?_
        split at hv
        · rcases hturn : body.exec n st with _ | ⟨_ | error, after⟩
          · rw [hturn] at hv; cases hv
          · rw [hturn] at hv; exact ih (.statement (.loop he hbody)) hv
          · rw [hturn] at hv; cases hv; exact ih (.statement hbody) hturn
        · cases hv; exact st.fits_done

end Treewalk
