import Treewalk.Eval.Stmt
import Treewalk.Proofs.Eval.Frames
import Treewalk.Proofs.Syntax.Built
import Treewalk.Token.Scan

/-!
# What a statement leaves of the scopes

Every scope that a statement opens is closed when it ends, in an error or not. Only a declaration
adds a name, and only where it stands. A value changes only where its name is set.
-/

namespace Treewalk

/-- The name that a node sets. -/
def Expr.target? : Expr → Option String
  | assign name _ => some name.lexeme
  | _ => none

def assigned (nodes : List Expr) : List String := nodes.filterMap Expr.target?

theorem assigned_subset {nodes nodes' : List Expr} (h : nodes ⊆ nodes') :
    assigned nodes ⊆ assigned nodes' :=
  List.filterMap_subset _ h

namespace Environment

/-! ## Environments before and after -/

/-- All names stay, and with them all values but those of the names in `set`. -/
structure Keeps (set : List String) (before after : Environment) : Prop where
  names : after.names = before.names
  slot? : ∀ i x, x ∉ set → after.slot? i x = before.slot? i x

/-- The innermost frame may get names, and the frames around it are kept. -/
structure Grows (set : List String) (before after : Environment) : Prop where
  names : ∃ inner outer new, before.names = inner :: outer ∧ after.names = (inner ++ new) :: outer
  slot? : ∀ i x, x ∉ set → after.slot? (i + 1) x = before.slot? (i + 1) x

variable {set set' : List String} {a b c : Environment}

theorem Keeps.refl (a : Environment) : Keeps set a a := ⟨rfl, fun _ _ _ => rfl⟩

theorem Keeps.trans (hab : Keeps set a b) (hbc : Keeps set b c) : Keeps set a c where
  names := hbc.names.trans hab.names
  slot? i x hx := (hbc.slot? i x hx).trans (hab.slot? i x hx)

theorem Keeps.mono (h : set ⊆ set') (hab : Keeps set a b) : Keeps set' a b where
  names := hab.names
  slot? i x hx := hab.slot? i x fun hmem => hx (h hmem)

theorem Keeps.grows (h : Keeps set a b) : Grows set a b where
  names := by
    obtain ⟨inner, outer, hnames⟩ := a.exists_names_eq
    exact ⟨inner, outer, [], hnames, by rw [h.names, hnames, List.append_nil]⟩
  slot? i x hx := h.slot? (i + 1) x hx

theorem Grows.trans (hab : Grows set a b) (hbc : Grows set b c) : Grows set a c where
  names := by
    obtain ⟨inner, outer, new, ha, hb⟩ := hab.names
    obtain ⟨_, _, more, hb', hc⟩ := hbc.names
    rw [hb, List.cons.injEq] at hb'
    obtain ⟨rfl, rfl⟩ := hb'
    exact ⟨inner, outer, new ++ more, ha, by rw [hc, List.append_assoc]⟩
  slot? i x hx := (hbc.slot? i x hx).trans (hab.slot? i x hx)

theorem Grows.mono (h : set ⊆ set') (hab : Grows set a b) : Grows set' a b where
  names := hab.names
  slot? i x hx := hab.slot? i x fun hmem => hx (h hmem)

theorem Grows.depth (h : Grows set a b) : b.depth = a.depth := by
  obtain ⟨inner, outer, new, ha, hb⟩ := h.names
  rw [← length_names, ← length_names, ha, hb, List.length_cons, List.length_cons]

theorem Grows.prefix_bindings (h : Grows set a b) (ha : a.depth = 1) :
    a.bindings.names <+: b.bindings.names := by
  obtain ⟨inner, outer, new, hnames, hnames'⟩ := h.names
  have houter : outer = [] := by
    rw [← length_names, hnames] at ha
    simpa using ha
  rw [houter] at hnames hnames'
  rw [names_bindings hnames, names_bindings hnames', List.foldl_append]
  exact Frame.prefix_foldl_addName new _

theorem grows_define (x : String) (v : Value) (a : Environment) : Grows set a (a.define x v) where
  names := by
    obtain ⟨inner, outer, ha, hdefine⟩ := names_define x v a
    obtain ⟨new, hnew⟩ := Frame.prefix_addName inner x
    exact ⟨inner, outer, new, ha, by rw [hdefine, hnew]⟩
  slot? i y _ := slot?_define (by simp) v a

theorem keeps_assign? {x : String} {v : Value} (h : a.assign? x v = some b) :
    Keeps [x] a b where
  names := names_assign? h
  slot? i _ hne := slot?_assign? (List.ne_of_not_mem_cons hne) h i

theorem Grows.keeps_pop (h : Grows set a.push b) : Keeps set a b.pop := by
  have hdepth : 1 < b.depth := by
    rw [h.depth]
    simp [Environment.depth, push]
  obtain ⟨_, _, new, ha, hb⟩ := h.names
  rw [names_push, List.cons.injEq] at ha
  obtain ⟨rfl, rfl⟩ := ha
  constructor
  · rw [names_pop hdepth, hb, List.tail_cons]
  · intro i x hx
    rw [slot?_pop hdepth, h.slot? i x hx, slot?_push]

end Environment

open Environment (Keeps Grows)

/-! ## Expressions -/

theorem Evaluated.keeps_andThen {set : List String} {env : Environment} {x : Evaluated}
    {next : Value → Environment → Evaluated} (hx : Keeps set env x.env)
    (hnext : ∀ v mid, Keeps set mid (next v mid).env) : Keeps set env (x.andThen next).env := by
  obtain ⟨result, mid⟩ := x
  cases result with
  | ok v => exact hx.trans (hnext v mid)
  | error e => exact hx

theorem Expr.eval_keeps (e : Expr) (env : Environment) :
    Keeps (assigned e.nodes) env (e.eval env).env := by
  induction e generalizing env with
  | literal v => exact .refl env
  | grouping inner ih =>
    exact (ih env).mono <| assigned_subset (by simp [nodes])
  | unary op t operand ih =>
    unfold eval
    refine Evaluated.keeps_andThen ?_ fun v mid => .refl mid
    exact (ih env).mono <| assigned_subset (by simp [nodes])
  | binary op t left right ihl ihr =>
    unfold eval
    refine Evaluated.keeps_andThen ?_ fun a mid => Evaluated.keeps_andThen ?_ fun b mid => .refl mid
    · exact (ihl env).mono <| assigned_subset (by simp [nodes])
    · exact (ihr mid).mono <| assigned_subset (by simp [nodes])
  | logical op t left right ihl ihr =>
    unfold eval
    refine Evaluated.keeps_andThen ?_ fun a mid => ?_
    · exact (ihl env).mono <| assigned_subset (by simp [nodes])
    · split
      · exact .refl mid
      · exact (ihr mid).mono <| assigned_subset (by simp [nodes])
  | var name =>
    unfold eval
    split <;> exact .refl env
  | assign name value ih =>
    unfold eval
    refine Evaluated.keeps_andThen ?_ fun v mid => ?_
    · exact (ih env).mono <| assigned_subset (by simp [nodes])
    · split
      · next after hassign =>
        exact (Environment.keeps_assign? hassign).mono (by simp [nodes, assigned, target?])
      · exact .refl mid

theorem State.evaluating_keeps {st : State} {e : Expr} {next : Value → State → Option Ending}
    {ending : Ending} {nodes : List Expr} (hnodes : e.nodes ⊆ nodes)
    (h : st.evaluating e next = some ending) :
    ∃ mid, Keeps (assigned nodes) st.env mid ∧
      ((∃ v, next v { st with env := mid } = some ending) ∨
        ∃ error, ending = ⟨some error, { st with env := mid }⟩) := by
  refine ⟨(e.eval st.env).env, (e.eval_keeps st.env).mono <| assigned_subset hnodes, ?_⟩
  unfold evaluating at h
  dsimp only at h
  split at h
  · next v _ => exact .inl ⟨v, h⟩
  · next error _ => exact .inr ⟨error, (Option.some.inj h).symm⟩

/-! ## Statements -/

namespace Stmt

theorem exec_declare {name : Token} {init : Option Expr} {n : Nat} {st : State} {ending : Ending}
    (h : (declare name init).exec n st = some ending) :
    ∃ mid, Keeps (assigned (declare name init).nodes) st.env mid ∧
      (ending.state.env = mid ∨ ∃ v, ending.state.env = mid.define name.lexeme v) := by
  cases n with
  | zero => cases h
  | succ n =>
    cases init with
    | none =>
      cases h
      exact ⟨st.env, .refl st.env, .inr ⟨.nil, rfl⟩⟩
    | some e =>
      have hsub : e.nodes ⊆ (declare name (some e)).nodes := by simp
      unfold exec at h
      obtain ⟨mid, hmid, ⟨v, hnext⟩ | ⟨error, rfl⟩⟩ := State.evaluating_keeps hsub h
      · cases hnext
        exact ⟨mid, hmid, .inr ⟨v, rfl⟩⟩
      · exact ⟨mid, hmid, .inl rfl⟩

/-- Statements that are no declarations keep the environment, if they end. -/
def KeepsScopes (run : Stmt → State → Option Ending) : Prop :=
  ∀ s : Stmt, s.Built → ∀ st ending, run s st = some ending →
    Keeps (assigned s.nodes) st.env ending.state.env

theorem grows_of_declared {n : Nat} (hrun : KeepsScopes (exec n)) {s : Stmt} (hs : s.Declared)
    {st : State} {ending : Ending} (h : s.exec n st = some ending) :
    Grows (assigned s.nodes) st.env ending.state.env := by
  cases hs with
  | declare _ _ =>
    obtain ⟨mid, hmid, hend | ⟨v, hend⟩⟩ := exec_declare h
    · exact hend ▸ hmid.grows
    · exact hend ▸ hmid.grows.trans (Environment.grows_define _ v mid)
  | statement hs => exact (hrun s hs st ending h).grows

theorem grows_of_runAll {n : Nat} (hrun : KeepsScopes (exec n)) {body : List Stmt}
    (hbody : ∀ s ∈ body, s.Declared) {st : State} {ending : Ending}
    (h : runAll (exec n) body st = some ending) :
    Grows (assigned (body.flatMap nodes)) st.env ending.state.env := by
  induction body generalizing st with
  | nil => cases h; exact (Keeps.refl st.env).grows
  | cons s body ih =>
    have hfirst {ending : Ending} (h : s.exec n st = some ending) :
        Grows (assigned ((s :: body).flatMap nodes)) st.env ending.state.env := by
      refine (grows_of_declared hrun (hbody s List.mem_cons_self) h).mono ?_
      exact assigned_subset (by simp)
    unfold runAll at h
    rcases hs : s.exec n st with _ | ⟨_ | error, mid⟩
    · rw [hs] at h; cases h
    · rw [hs] at h
      have hrest := ih (fun s hs => hbody s (List.mem_cons_of_mem _ hs)) h
      exact (hfirst hs).trans (hrest.mono <| assigned_subset (by simp))
    · rw [hs] at h
      cases h
      exact hfirst hs

theorem exec_keeps (n : Nat) : KeepsScopes (exec n) := by
  -- The bound bounds loops too, so a loop that turns again is met by the hypothesis.
  induction n with
  | zero => intro s _ st ending h; cases h
  | succ n ih =>
    intro s hs st ending h
    unfold exec at h
    cases hs with
    | expression _ | print _ _ =>
      simp only [nodes_expression, nodes_print]
      obtain ⟨mid, hmid, ⟨v, hnext⟩ | ⟨error, rfl⟩⟩ := State.evaluating_keeps (List.Subset.refl _) h
      · cases hnext; exact hmid
      · exact hmid
    | block hbody =>
      rw [nodes_block]
      obtain ⟨inside, hinside, rfl⟩ := Option.map_eq_some_iff.1 h
      -- Names of the body are in the frame that is closed, also after an error.
      exact (grows_of_runAll ih hbody hinside).keeps_pop
    | @ifThen condition yes _ hyes =>
      have hsub : condition.nodes ⊆ (ifThen condition yes).nodes := by simp
      obtain ⟨mid, hmid, ⟨v, hnext⟩ | ⟨error, rfl⟩⟩ := State.evaluating_keeps hsub h
      · split at hnext
        · exact hmid.trans ((ih yes hyes _ _ hnext).mono <| assigned_subset (by simp))
        · cases hnext; exact hmid
      · exact hmid
    | @ifElse condition yes no _ hyes hno =>
      have hsub : condition.nodes ⊆ (ifElse condition yes no).nodes := by simp
      obtain ⟨mid, hmid, ⟨v, hnext⟩ | ⟨error, rfl⟩⟩ := State.evaluating_keeps hsub h
      · split at hnext
        · exact hmid.trans ((ih yes hyes _ _ hnext).mono <| assigned_subset (by simp))
        · exact hmid.trans ((ih no hno _ _ hnext).mono <| assigned_subset (by simp))
      · exact hmid
    | @loop condition body hcondition hbody =>
      have hsub : condition.nodes ⊆ (loop condition body).nodes := by simp
      have hturn {st : State} {ending : Ending} (h : body.exec n st = some ending) :
          Keeps (assigned (loop condition body).nodes) st.env ending.state.env :=
        (ih body hbody _ _ h).mono <| assigned_subset (by simp)
      obtain ⟨mid, hmid, ⟨v, hnext⟩ | ⟨error, rfl⟩⟩ := State.evaluating_keeps hsub h
      · split at hnext
        · rcases hrun : body.exec n { st with env := mid } with _ | ⟨_ | error, after⟩
          · rw [hrun] at hnext; cases hnext
          · rw [hrun] at hnext
            have hagain := ih (loop condition body) (.loop hcondition hbody) _ _ hnext
            exact (hmid.trans (hturn hrun)).trans hagain
          · rw [hrun] at hnext
            cases hnext
            exact hmid.trans (hturn hrun)
        · cases hnext; exact hmid
      · exact hmid

/-- The name that the statement itself declares. -/
def declared? : Stmt → Option String
  | declare name _ => some name.lexeme
  | _ => none

theorem names_declare {name : Token} {init : Option Expr} {n : Nat} {st : State} {ending : Ending}
    (h : (declare name init).exec n st = some ending) :
    ending.state.env.names = st.env.names ∨ ∃ inner outer, st.env.names = inner :: outer ∧
      ending.state.env.names = (inner ++ [name.lexeme]) :: outer := by
  obtain ⟨mid, hmid, hend | ⟨v, hend⟩⟩ := exec_declare h
  · exact .inl (hend ▸ hmid.names)
  · obtain ⟨inner, outer, hnames, hdefine⟩ := mid.names_define name.lexeme v
    rw [hend, hdefine, ← hmid.names, hnames, Frame.addName]
    split
    · exact .inl rfl
    · exact .inr ⟨inner, outer, rfl, rfl⟩

theorem slot?_declare {name : Token} {init : Option Expr} {n : Nat} {st : State} {ending : Ending}
    (h : (declare name init).exec n st = some ending) {i : Nat} {x : String}
    (hx : x ∉ assigned (declare name init).nodes) (hdeclared : ¬ (i = 0 ∧ x = name.lexeme)) :
    ending.state.env.slot? i x = st.env.slot? i x := by
  obtain ⟨mid, hmid, hend | ⟨v, hend⟩⟩ := exec_declare h
  · exact hend ▸ hmid.slot? i x hx
  · rw [hend, Environment.slot?_define hdeclared, hmid.slot? i x hx]

end Stmt

/-- A statement that the parser built leaves every scope that was open, and no other, however it
ends. -/
theorem exec_preserves_scopes :
    (∀ tokens, ∀ s ∈ (parse tokens).statements.flatMap Stmt.parts, ∀ n st ending,
      s.exec n st = some ending →
      ending.state.env.depth = st.env.depth ∧
      (ending.state.env.names = st.env.names ∨ ∃ x inner outer, s.declared? = some x ∧
        st.env.names = inner :: outer ∧ ending.state.env.names = (inner ++ [x]) :: outer) ∧
      ∀ i x, x ∉ assigned s.nodes → ¬ (i = 0 ∧ s.declared? = some x) →
        ending.state.env.slot? i x = st.env.slot? i x) ∧
    ∀ e : Expr,
      (∀ env, (e.eval env).env.names = env.names ∧
        ∀ i x, x ∉ assigned e.nodes → (e.eval env).env.slot? i x = env.slot? i x) ∧
      ∀ n st ending, (Stmt.expression e).exec n st = some ending → ending.state.out = st.out := by
  refine ⟨fun tokens s hs n st ending h => ?_, fun e => ⟨fun env => ?_, fun n st ending h => ?_⟩⟩
  · obtain ⟨whole, hwhole, hs⟩ := List.mem_flatMap.1 hs
    have hdeclared := (declared_of_mem_parse hwhole).parts s hs
    refine ⟨(Stmt.grows_of_declared (Stmt.exec_keeps n) hdeclared h).depth, ?_⟩
    cases hdeclared with
    | @declare name init _ _ =>
      constructor
      · rcases Stmt.names_declare h with hsame | ⟨inner, outer, hbefore, hafter⟩
        · exact .inl hsame
        · exact .inr ⟨name.lexeme, inner, outer, rfl, hbefore, hafter⟩
      · intro i x hx hne
        exact Stmt.slot?_declare h hx fun ⟨hi, hname⟩ => hne ⟨hi, hname ▸ rfl⟩
    | statement hbuilt =>
      have hkeeps := Stmt.exec_keeps n s hbuilt st ending h
      exact ⟨.inl hkeeps.names, fun i x hx _ => hkeeps.slot? i x hx⟩
  · have hkeeps := e.eval_keeps env
    exact ⟨hkeeps.names, hkeeps.slot?⟩
  · cases n with
    | zero => cases h
    | succ n =>
      unfold Stmt.exec at h
      obtain ⟨mid, -, ⟨v, hnext⟩ | ⟨error, rfl⟩⟩ := State.evaluating_keeps (List.Subset.refl _) h
      · cases hnext; rfl
      · rfl

theorem exec_preserves_scopes_error : ∃ s ending,
    s ∈ (parse (scan "\x7b var b; \x7b var c; a = b; missing; \x7d \x7d").tokens).statements ∧
      s.exec 3 { env := ⟨[], [("a", .nil), ("b", .bool true)]⟩ } = some ending ∧
      ending.error.isSome ∧ ending.state.env.depth = 1 ∧
      ending.state.env.names = [["a", "b"]] ∧
      ending.state.env.slot? 0 "b" = some (.bool true) := by
  let st : State := { env := ⟨[], [("a", .nil), ("b", .bool true)]⟩ }
  let tokens := (scan "\x7b var b; \x7b var c; a = b; missing; \x7d \x7d").tokens
  have hfails : (parse tokens).statements.any fun s =>
      s.declared?.isNone && decide ("b" ∉ assigned s.nodes) &&
        (s.exec 3 st).any (·.error.isSome) := by
    decide +kernel
  obtain ⟨s, hs, hfails⟩ := List.any_eq_true.1 hfails
  rw [Bool.and_eq_true, Bool.and_eq_true, Option.isNone_iff_eq_none, decide_eq_true_iff,
    Option.any_eq_true] at hfails
  obtain ⟨⟨hdeclared, hassigned⟩, ending, hexec, herror⟩ := hfails
  have hpart := List.mem_flatMap.2 ⟨s, hs, s.mem_parts_self⟩
  obtain ⟨hdepth, hnames, hslot⟩ := exec_preserves_scopes.1 tokens s hpart 3 st ending hexec
  refine ⟨s, ending, hs, hexec, herror, hdepth, ?_, ?_⟩
  · rcases hnames with hsame | ⟨x, _, _, hx, _⟩
    · exact hsame
    · rw [hdeclared] at hx
      cases hx
  · exact hslot 0 "b" hassigned (by simp [hdeclared])

end Treewalk
