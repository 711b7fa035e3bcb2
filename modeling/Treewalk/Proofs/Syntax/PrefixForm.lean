import Treewalk.Proofs.Syntax.Grammar
import Treewalk.Syntax.Parser
import Treewalk.Syntax.Reader

/-!
# The printed form as a grammar

`PrefixForm` says which tokens are the printed form of which expression. The reader accepts what
the grammar derives and nothing else.
-/

namespace Treewalk

open Token (Kind)

inductive PrefixForm : List Token → Expr → Prop
  | token {t e} : Expr.ofToken? t = some e → PrefixForm [t] e
  | group {o head c ts e} : o.kind = .leftParen → Reader.isGroup head → PrefixForm ts e →
    c.kind = .rightParen → PrefixForm (o :: head :: ts ++ [c]) (.grouping e)
  | unary {o head c op ts e} : o.kind = .leftParen → head.kind = UnaryOp.kind op →
    PrefixForm ts e → c.kind = .rightParen → PrefixForm (o :: head :: ts ++ [c]) (.unary op head e)
  | binary {o head c op ts us left right} : o.kind = .leftParen → head.kind = BinaryOp.kind op →
    PrefixForm ts left → PrefixForm us right → c.kind = .rightParen →
    PrefixForm (o :: head :: (ts ++ us) ++ [c]) (.binary op head left right)
  | logical {o head c op ts us left right} : o.kind = .leftParen →
    head.kind = LogicalOp.kind op → PrefixForm ts left → PrefixForm us right →
    c.kind = .rightParen → PrefixForm (o :: head :: (ts ++ us) ++ [c]) (.logical op head left right)
  | assign {o head name c ts e} : o.kind = .leftParen → head.kind = .equal →
    name.kind = .identifier → PrefixForm ts e → c.kind = .rightParen →
    PrefixForm (o :: head :: name :: ts ++ [c]) (.assign name e)

theorem PrefixForm.head {ts : List Token} {e : Expr} (h : PrefixForm ts e) :
    ∃ t us, ts = t :: us ∧ t.kind ≠ .rightParen := by
  cases h with
  | @token t _ he =>
    refine ⟨t, [], rfl, ?_⟩
    rintro hk
    simp [Expr.ofToken?, hk] at he
  | group ho | unary ho | binary ho | logical ho | assign ho => exact ⟨_, _, rfl, by simp [ho]⟩

namespace Reader

variable {α β : Type}

/-! ## Laws of readers -/

/-- The reader takes the tokens up to `rest` and gives `a`. -/
def Gives (r : Reader α) (ts : List Token) (a : α) (rest : List Token) : Prop :=
  r ts = .ok (a, rest)

theorem gives_pure {a b : α} {ts rest : List Token} :
    Gives (pure a) ts b rest ↔ a = b ∧ ts = rest := by
  show (Except.ok (a, ts) : Except Complaint _) = .ok (b, rest) ↔ _
  simp

theorem gives_bind {r : Reader α} {f : α → Reader β} {ts rest : List Token} {b : β} :
    Gives (r >>= f) ts b rest ↔ ∃ a mid, Gives r ts a mid ∧ Gives (f a) mid b rest := by
  unfold Gives
  show (r ts >>= fun p => f p.1 p.2) = .ok (b, rest) ↔ _
  rcases h : r ts with c | ⟨a, mid⟩
  · simp [bind, Except.bind]
  · constructor
    · intro hf
      exact ⟨a, mid, rfl, hf⟩
    · rintro ⟨_, _, hr, hf⟩
      cases hr
      exact hf

theorem not_gives_complain {what : Expectation} {t : Option Token} {ts rest : List Token} {a : α} :
    ¬ Gives (complain what t) ts a rest := nofun

theorem gives_next {ts rest : List Token} {o : Option Token} :
    Gives next ts o rest ↔ o = ts.head? ∧ rest = ts.tail := by
  show (Except.ok (ts.head?, ts.tail) : Except Complaint _) = .ok (o, rest) ↔ _
  simp [eq_comm]

theorem gives_peek {ts rest : List Token} {o : Option Token} :
    Gives peek ts o rest ↔ o = ts.head? ∧ rest = ts := by
  show (Except.ok (ts.head?, ts) : Except Complaint _) = .ok (o, rest) ↔ _
  simp [eq_comm]

theorem gives_expect {kind : Kind} {what : Expectation} {ts rest : List Token} {t : Token} :
    Gives (expect kind what) ts t rest ↔ ts = t :: rest ∧ t.kind = kind := by
  unfold expect
  rw [gives_bind]
  constructor
  · rintro ⟨o, mid, hpeek, h⟩
    obtain ⟨rfl, rfl⟩ := gives_peek.1 hpeek
    cases mid with
    | nil => exact absurd h not_gives_complain
    | cons u us =>
      simp only [List.head?_cons] at h
      split at h
      · next hk =>
        obtain ⟨_, after, hnext, hpure⟩ := gives_bind.1 h
        obtain ⟨-, rfl⟩ := gives_next.1 hnext
        obtain ⟨rfl, rfl⟩ := gives_pure.1 hpure
        exact ⟨rfl, hk⟩
      · exact absurd h not_gives_complain
  · rintro ⟨rfl, hk⟩
    refine ⟨_, _, gives_peek.2 ⟨rfl, rfl⟩, ?_⟩
    simp only [List.head?_cons, if_pos hk]
    exact gives_bind.2 ⟨_, _, gives_next.2 ⟨rfl, rfl⟩, gives_pure.2 ⟨rfl, rfl⟩⟩

/-! ## The reader follows the grammar -/

/-- A reader that gives only what the grammar derives. -/
def Sound (expr : Reader Expr) : Prop :=
  ∀ ts e rest, Gives expr ts e rest → ∃ us, ts = us ++ rest ∧ PrefixForm us e

theorem Sound.one {expr : Reader Expr} (hexpr : Sound expr) {build : Expr → Expr}
    {ts rest : List Token} {e : Expr} (h : Gives (return build (← expr)) ts e rest) :
    ∃ us inner, ts = us ++ rest ∧ PrefixForm us inner ∧ build inner = e := by
  obtain ⟨inner, mid, hinner, hpure⟩ := gives_bind.1 h
  obtain ⟨hbuild, rfl⟩ := gives_pure.1 hpure
  obtain ⟨us, rfl, hus⟩ := hexpr _ _ _ hinner
  exact ⟨us, inner, rfl, hus, hbuild⟩

theorem Sound.two {expr : Reader Expr} (hexpr : Sound expr) {build : Expr → Expr → Expr}
    {ts rest : List Token} {e : Expr}
    (h : Gives (do let left ← expr; return build left (← expr)) ts e rest) :
    ∃ us vs left right, ts = us ++ vs ++ rest ∧ PrefixForm us left ∧ PrefixForm vs right ∧
      build left right = e := by
  obtain ⟨left, mid, hleft, hrest⟩ := gives_bind.1 h
  obtain ⟨vs, right, rfl, hvs, hbuild⟩ := hexpr.one hrest
  obtain ⟨us, rfl, hus⟩ := hexpr _ _ _ hleft
  exact ⟨us, vs, left, right, by simp, hus, hvs, hbuild⟩

theorem sound_formParts {expr : Reader Expr} (hexpr : Sound expr) {o c head : Token}
    (ho : o.kind = .leftParen) (hc : c.kind = .rightParen) {ts rest : List Token} {e : Expr}
    (h : Gives (formParts expr head) ts e (c :: rest)) :
    ∃ us, o :: head :: ts = us ++ rest ∧ PrefixForm us e := by
  unfold formParts at h
  split at h
  · next hgroup =>
    obtain ⟨us, inner, rfl, hus, rfl⟩ := hexpr.one h
    exact ⟨_, by simp, .group ho hgroup hus hc⟩
  split at h
  · next hequal =>
    obtain ⟨name, mid, hname, hrest⟩ := gives_bind.1 h
    obtain ⟨rfl, hkind⟩ := gives_expect.1 hname
    obtain ⟨us, value, rfl, hus, rfl⟩ := hexpr.one hrest
    exact ⟨_, by simp, .assign ho hequal hkind hus hc⟩
  split at h
  · next op hop =>
    obtain ⟨us, vs, left, right, rfl, hus, hvs, rfl⟩ := hexpr.two h
    exact ⟨_, by simp, .logical ho (LogicalOp.find?_all.1 hop) hus hvs hc⟩
  split at h
  · next hminus =>
    obtain ⟨first, mid, hfirst, hrest⟩ := gives_bind.1 h
    obtain ⟨_, mid', hpeek, hrest⟩ := gives_bind.1 hrest
    obtain ⟨rfl, rfl⟩ := gives_peek.1 hpeek
    split at hrest
    · obtain ⟨rfl, rfl⟩ := gives_pure.1 hrest
      obtain ⟨us, rfl, hus⟩ := hexpr _ _ _ hfirst
      exact ⟨_, by simp, .unary ho hminus hus hc⟩
    · obtain ⟨vs, right, rfl, hvs, rfl⟩ := hexpr.one hrest
      obtain ⟨us, rfl, hus⟩ := hexpr _ _ _ hfirst
      exact ⟨_, by simp, .binary ho hminus hus hvs hc⟩
  split at h
  · next op hop =>
    obtain ⟨us, operand, rfl, hus, rfl⟩ := hexpr.one h
    exact ⟨_, by simp, .unary ho (UnaryOp.find?_all.1 hop) hus hc⟩
  split at h
  · next op hop =>
    obtain ⟨us, vs, left, right, rfl, hus, hvs, rfl⟩ := hexpr.two h
    exact ⟨_, by simp, .binary ho (BinaryOp.find?_all.1 hop) hus hvs hc⟩
  · exact absurd h not_gives_complain

theorem sound_exprWithin (n : Nat) : Sound (exprWithin n) := by
  induction n with
  | zero => exact fun _ _ _ h => absurd h not_gives_complain
  | succ n ih =>
    intro ts e rest h
    rw [exprWithin] at h
    obtain ⟨o, mid, hnext, h⟩ := gives_bind.1 h
    obtain ⟨rfl, rfl⟩ := gives_next.1 hnext
    cases ts with
    | nil => exact absurd h not_gives_complain
    | cons t ts =>
      simp only [List.head?_cons, List.tail_cons] at h
      split at h
      · next e' he =>
        obtain ⟨rfl, rfl⟩ := gives_pure.1 h
        exact ⟨[t], rfl, .token he⟩
      · split at h
        · next ho =>
          unfold formTail at h
          obtain ⟨_, _, hnext, h⟩ := gives_bind.1 h
          obtain ⟨rfl, rfl⟩ := gives_next.1 hnext
          cases ts with
          | nil => exact absurd h not_gives_complain
          | cons head ts =>
            obtain ⟨e', mid, hparts, h⟩ := gives_bind.1 h
            obtain ⟨c, after, hexpect, hpure⟩ := gives_bind.1 h
            obtain ⟨rfl, hc⟩ := gives_expect.1 hexpect
            obtain ⟨rfl, rfl⟩ := gives_pure.1 hpure
            exact sound_formParts ih ho hc hparts
        · exact absurd h not_gives_complain

theorem formParts_binary {expr : Reader Expr} {head : Token} {op : BinaryOp}
    (hk : head.kind = op.kind) (hop : op ≠ .subtract) : formParts expr head = do
      let left ← expr
      return .binary op head left (← expr) := by
  have hgroup : ¬ isGroup head := by simp only [isGroup, hk]; cases op <;> simp [BinaryOp.kind]
  have hequal : head.kind ≠ .equal := by rw [hk]; cases op <;> simp [BinaryOp.kind]
  have hminus : head.kind ≠ .minus := by rw [hk]; cases op <;> simp_all [BinaryOp.kind]
  have hlogical : LogicalOp.all.find? (·.kind = head.kind) = none := by rw [hk]; cases op <;> rfl
  have hunary : UnaryOp.all.find? (·.kind = head.kind) = none := by
    rw [hk]
    cases op with
    | subtract => exact absurd rfl hop
    | _ => rfl
  unfold formParts
  rw [if_neg hgroup, if_neg hequal, hlogical]
  dsimp only
  rw [if_neg hminus, hunary, BinaryOp.find?_all.2 hk]

theorem formParts_minus {expr : Reader Expr} {head : Token} (hk : head.kind = .minus) :
    formParts expr head = do
      let first ← expr
      if (← peek).any (·.kind = .rightParen) then
        return .unary .negate head first
      return .binary .subtract head first (← expr) := by
  have hlogical : LogicalOp.all.find? (·.kind = head.kind) = none := by rw [hk]; rfl
  unfold formParts
  rw [if_neg (by simp [isGroup, hk]), if_neg (by simp [hk]), hlogical]
  dsimp only
  rw [if_pos hk]

theorem formParts_logical {expr : Reader Expr} {head : Token} {op : LogicalOp}
    (hk : head.kind = op.kind) : formParts expr head = do
      let left ← expr
      return .logical op head left (← expr) := by
  have hgroup : ¬ isGroup head := by simp only [isGroup, hk]; cases op <;> simp [LogicalOp.kind]
  have hequal : head.kind ≠ .equal := by rw [hk]; cases op <;> simp [LogicalOp.kind]
  unfold formParts
  rw [if_neg hgroup, if_neg hequal, LogicalOp.find?_all.2 hk]

theorem formParts_not {expr : Reader Expr} {head : Token} (hk : head.kind = UnaryOp.not.kind) :
    formParts expr head = return .unary .not head (← expr) := by
  have hlogical : LogicalOp.all.find? (·.kind = head.kind) = none := by rw [hk]; rfl
  unfold formParts
  rw [if_neg (by simp [isGroup, hk, UnaryOp.kind]), if_neg (by simp [hk, UnaryOp.kind]), hlogical]
  dsimp only
  rw [if_neg (by simp [hk, UnaryOp.kind]), UnaryOp.find?_all.2 hk]

/-- The reader takes the form from the front of a list. The bound is met by its length. -/
def Accepts (us : List Token) (e : Expr) : Prop :=
  ∀ n rest, us.length ≤ n → Gives (exprWithin n) (us ++ rest) e rest

theorem accepts_token {t : Token} {e : Expr} (he : Expr.ofToken? t = some e) : Accepts [t] e := by
  intro n rest hn
  obtain ⟨n, rfl⟩ : ∃ k, n = k + 1 := ⟨n - 1, by simp at hn; omega⟩
  rw [exprWithin, gives_bind]
  refine ⟨_, _, gives_next.2 ⟨rfl, rfl⟩, ?_⟩
  simp only [List.cons_append, List.head?_cons, he]
  exact gives_pure.2 ⟨rfl, rfl⟩

theorem accepts_form {o head c : Token} (ho : o.kind = .leftParen) (hc : c.kind = .rightParen)
    {ts : List Token} {e : Expr}
    (h : ∀ n rest, ts.length ≤ n →
      Gives (formParts (exprWithin n) head) (ts ++ c :: rest) e (c :: rest)) :
    Accepts (o :: head :: ts ++ [c]) e := by
  intro n rest hn
  obtain ⟨n, rfl⟩ : ∃ k, n = k + 1 := ⟨n - 1, by simp at hn; omega⟩
  have hno : Expr.ofToken? o = none := by simp [Expr.ofToken?, ho]
  rw [exprWithin, gives_bind]
  refine ⟨_, _, gives_next.2 ⟨rfl, rfl⟩, ?_⟩
  simp only [List.cons_append, List.append_assoc, List.nil_append, List.head?_cons, List.tail_cons,
    hno, if_pos ho]
  unfold formTail
  refine gives_bind.2 ⟨_, _, gives_next.2 ⟨rfl, rfl⟩, ?_⟩
  refine gives_bind.2 ⟨e, c :: rest, h n rest (by simp at hn; omega), ?_⟩
  exact gives_bind.2 ⟨c, rest, gives_expect.2 ⟨rfl, hc⟩, gives_pure.2 ⟨rfl, rfl⟩⟩

theorem Accepts.both {ts us : List Token} {left right : Expr} (hl : Accepts ts left)
    (hr : Accepts us right) {n : Nat} (hn : (ts ++ us).length ≤ n) (rest : List Token) :
    Gives (exprWithin n) (ts ++ us ++ rest) left (us ++ rest) ∧
      Gives (exprWithin n) (us ++ rest) right rest := by
  rw [List.length_append] at hn
  rw [List.append_assoc]
  exact ⟨hl n _ (by omega), hr n _ (by omega)⟩

theorem accepts_of_prefixForm {us : List Token} {e : Expr} (h : PrefixForm us e) :
    Accepts us e := by
  induction h with
  | token he => exact accepts_token he
  | group ho hgroup _ hc ih =>
    refine accepts_form ho hc fun n rest hn => ?_
    unfold formParts
    rw [if_pos hgroup]
    exact gives_bind.2 ⟨_, _, ih n _ hn, gives_pure.2 ⟨rfl, rfl⟩⟩
  | @unary o head c op ts e ho hk _ hc ih =>
    refine accepts_form ho hc fun n rest hn => ?_
    cases op with
    | not =>
      rw [formParts_not hk]
      exact gives_bind.2 ⟨_, _, ih n _ hn, gives_pure.2 ⟨rfl, rfl⟩⟩
    | negate =>
      rw [formParts_minus hk]
      refine gives_bind.2 ⟨_, _, ih n _ hn, gives_bind.2 ⟨_, _, gives_peek.2 ⟨rfl, rfl⟩, ?_⟩⟩
      rw [if_pos (by simp [hc])]
      exact gives_pure.2 ⟨rfl, rfl⟩
  | @binary o head c op ts us left right ho hk _ hright hc ihl ihr =>
    refine accepts_form ho hc fun n rest hn => ?_
    obtain ⟨hl, hr⟩ := ihl.both ihr hn (c :: rest)
    by_cases hop : op = .subtract
    · -- What follows the first part is no closing parenthesis, so this is not the sign.
      subst hop
      obtain ⟨t, vs, rfl, ht⟩ := hright.head
      rw [formParts_minus hk]
      refine gives_bind.2 ⟨_, _, hl, gives_bind.2 ⟨_, _, gives_peek.2 ⟨rfl, rfl⟩, ?_⟩⟩
      rw [if_neg (by simp [ht])]
      exact gives_bind.2 ⟨_, _, hr, gives_pure.2 ⟨rfl, rfl⟩⟩
    · rw [formParts_binary hk hop]
      exact gives_bind.2 ⟨_, _, hl, gives_bind.2 ⟨_, _, hr, gives_pure.2 ⟨rfl, rfl⟩⟩⟩
  | @logical o head c op ts us left right ho hk _ _ hc ihl ihr =>
    refine accepts_form ho hc fun n rest hn => ?_
    obtain ⟨hl, hr⟩ := ihl.both ihr hn (c :: rest)
    rw [formParts_logical hk]
    exact gives_bind.2 ⟨_, _, hl, gives_bind.2 ⟨_, _, hr, gives_pure.2 ⟨rfl, rfl⟩⟩⟩
  | @assign o head name c ts e ho hk hname _ hc ih =>
    refine @accepts_form o head c ho hc (name :: ts) _ fun n rest hn => ?_
    unfold formParts
    rw [if_neg (by simp [isGroup, hk]), if_pos hk]
    refine gives_bind.2 ⟨name, _, gives_expect.2 ⟨rfl, hname⟩, ?_⟩
    exact gives_bind.2 ⟨_, _, ih n _ (by simp at hn; omega), gives_pure.2 ⟨rfl, rfl⟩⟩

theorem gives_whole {ts rest : List Token} {e : Expr} :
    Gives whole ts e rest ↔ PrefixForm ts e ∧ rest = [] := by
  have hwhole : Gives whole ts e rest ↔
      ∃ mid, Gives (exprWithin (ts.length + 1)) ts e mid ∧ mid = [] ∧ rest = [] := by
    unfold whole
    rw [gives_bind]
    constructor
    · rintro ⟨_, _, hget, h⟩
      cases hget
      obtain ⟨e', _, he, h⟩ := gives_bind.1 h
      obtain ⟨_, mid, hpeek, h⟩ := gives_bind.1 h
      obtain ⟨rfl, rfl⟩ := gives_peek.1 hpeek
      cases mid with
      | nil =>
        obtain ⟨rfl, rfl⟩ := gives_pure.1 h
        exact ⟨[], he, rfl, rfl⟩
      | cons t mid => exact absurd h not_gives_complain
    · rintro ⟨_, he, rfl, rfl⟩
      refine ⟨ts, ts, rfl, gives_bind.2 ⟨e, [], he, ?_⟩⟩
      exact gives_bind.2 ⟨none, [], gives_peek.2 ⟨rfl, rfl⟩, gives_pure.2 ⟨rfl, rfl⟩⟩
  rw [hwhole]
  constructor
  · rintro ⟨_, he, rfl, rfl⟩
    obtain ⟨us, rfl, hus⟩ := sound_exprWithin _ _ _ _ he
    exact ⟨by rwa [List.append_nil], rfl⟩
  · rintro ⟨h, rfl⟩
    have he := accepts_of_prefixForm h (ts.length + 1) [] (Nat.le_succ _)
    rw [List.append_nil] at he
    exact ⟨[], he, rfl, rfl⟩

end Reader

theorem readExpr_eq_ok_iff {text : String} {e : Expr} :
    readExpr text = .ok e ↔
      (scan text).errors = [] ∧ PrefixForm (beforeEnd (scan text).tokens) e := by
  unfold readExpr
  cases herrors : (scan text).errors with
  | cons error errors => simp [herrors]
  | nil =>
    have hwhole := @Reader.gives_whole (beforeEnd (scan text).tokens)
    simp only [herrors, true_and]
    constructor
    · intro h
      split at h
      · next e' rest hread =>
        cases h
        exact (hwhole.1 hread).1
      · cases h
    · intro h
      have hread : Reader.whole.run (beforeEnd (scan text).tokens) = .ok (e, []) :=
        hwhole.2 ⟨h, rfl⟩
      unfold beforeEnd at hread
      rw [hread]

end Treewalk
