import Treewalk.Proofs.Syntax.Grammar
import Treewalk.Proofs.Syntax.Knots
import Treewalk.Proofs.Syntax.Success

/-!
# Expressions are parsed by the grammar

What the expression parser takes, the grammar derives (`expression_sound`). What the grammar
derives, the parser takes, if no token follows that would go on with it (`expression_complete`).
The complaints on the way are the bad targets, up to order.
-/

namespace Treewalk.Parser

open Token (Kind)
open Grammar (Derives Symbol relaxed)

/-! ## The parser of each symbol -/

def operatorsOf : Grammar.Level → Level
  | .or => logicalLevel .or
  | .and => logicalLevel .and
  | .equality => binaryLevel [.notEqual, .equal]
  | .comparison => binaryLevel [.greater, .greaterEqual, .less, .lessEqual]
  | .term => binaryLevel [.subtract, .add]
  | .factor => binaryLevel [.divide, .multiply]

/-- Operators and operands after `left`, as many as there are. -/
def loop (level : Level) (operand : Parser Expr) (left : Expr) : Parser Expr :=
  bounded fun rounds => operations level operand rounds left

def operandOf (p : Parser Expr) : Grammar.Level → Parser Expr
  | .or => conjunction p
  | .and => equality p
  | .equality => comparison p
  | .comparison => term p
  | .term => factor p
  | .factor => unary (primary p)

/-- The parser of a symbol, given the one for what is nested inside. -/
def phrase (p : Parser Expr) : Symbol → Parser Expr
  | .assignment => assignment p
  | .level l => chain (operatorsOf l) (operandOf p l)
  | .more l left => loop (operatorsOf l) (operandOf p l) left
  | .unary => unary (primary p)
  | .primary => primary p

theorem phrase_operand (p : Parser Expr) (l : Grammar.Level) :
    phrase p l.operand = operandOf p l := by
  cases l <;> rfl

theorem shrinks_operandOf {p : Parser Expr} (hp : Shrinks p) (l : Grammar.Level) :
    Shrinks (operandOf p l) := by
  have h0 := shrinks_unary (shrinks_primary hp)
  have h1 : Shrinks (factor p) := shrinks_chain h0
  have h2 : Shrinks (term p) := shrinks_chain h1
  have h3 : Shrinks (comparison p) := shrinks_chain h2
  have h4 : Shrinks (equality p) := shrinks_chain h3
  have h5 : Shrinks (conjunction p) := shrinks_chain h4
  cases l <;> assumption

theorem operatorsOf_apply (l : Grammar.Level) (t : Token) :
    operatorsOf l t = (l.node? t.kind).map fun node => node t := by
  cases l <;> simp only [operatorsOf, logicalLevel, binaryLevel] <;>
    cases t.kind <;> rfl

theorem derives_of_ofToken? {t : Token} {e : Expr} (h : Expr.ofToken? t = some e) :
    Derives relaxed .primary [t] e [] := by
  have hliteral (v : Value) (hv : v = Grammar.literalValue t.literal)
      (hk : t.kind = .number ∨ t.kind = .string) : Derives relaxed .primary [t] (.literal v) [] := by
    subst hv
    exact hk.elim .number .string
  unfold Expr.ofToken? at h
  split at h
  · next hk => cases h; exact .nilWord hk
  · next hk => cases h; exact .trueWord hk
  · next hk => cases h; exact .falseWord hk
  · next hk => split at h <;> cases h <;> exact hliteral _ (by simp [*, Grammar.literalValue]) (.inl hk)
  · next hk => split at h <;> cases h <;> exact hliteral _ (by simp [*, Grammar.literalValue]) (.inr hk)
  · next hk => cases h; exact .name hk
  · cases h

theorem ofToken?_literal {t : Token} (hk : t.kind = .number ∨ t.kind = .string) :
    Expr.ofToken? t = some (.literal (Grammar.literalValue t.literal)) := by
  unfold Expr.ofToken?
  rcases hk with hk | hk <;> rw [hk] <;> dsimp only <;>
    split <;> simp [*, Grammar.literalValue]

/-! ## When the pieces succeed -/

theorem yields_primary {p : Parser Expr} {ts rest : List Token} {e : Expr}
    {noted : List Complaint} :
    Yields (primary p) ts e rest noted ↔
      (∃ t, ts = t :: rest ∧ Expr.ofToken? t = some e ∧ noted = []) ∨
      ∃ o c us inner, ts = o :: us ∧ Expr.ofToken? o = none ∧ o.kind = .leftParen ∧
        Yields p us inner (c :: rest) noted ∧ c.kind = .rightParen ∧ e = .grouping inner := by
  cases ts with
  | nil => simp [primary, Yields, fail]
  | cons t ts =>
    unfold primary
    cases ht : Expr.ofToken? t with
    | some e' =>
      simp only [Yields, ht]
      grind
    | none =>
      by_cases hk : t.kind = .leftParen
      · simp only [Yields, ht, hk, if_true]
        show Yields (p >>= _) ts e rest noted ↔ _
        rw [yields_bind]
        constructor
        · rintro ⟨inner, mid, before, _, hp, htail, rfl⟩
          obtain ⟨c, _, rfl, hc, hend⟩ := yields_expect_bind.1 htail
          obtain ⟨rfl, rfl, rfl⟩ := yields_pure.1 hend
          exact .inr ⟨t, c, ts, inner, rfl, ht, hk, by rw [List.append_nil]; exact hp, hc, rfl⟩
        · rintro (⟨u, h, hu, -⟩ | ⟨o, c, us, inner, h, -, -, hp, hc, rfl⟩)
          · rw [List.cons.injEq] at h
            rw [← h.1, ht] at hu
            cases hu
          · rw [List.cons.injEq] at h
            exact ⟨inner, c :: rest, noted, [], by rw [h.2]; exact hp,
              yields_expect_bind.2 ⟨c, rest, rfl, hc, yields_pure.2 ⟨rfl, rfl, rfl⟩⟩, by simp⟩
      · simp only [Yields, ht, hk, if_false, fail]
        grind

theorem yields_unary {p : Parser Expr} {t : Token} {ts rest : List Token} {e : Expr}
    {noted : List Complaint} :
    Yields (unary p) (t :: ts) e rest noted ↔
      (∃ op operand, t.kind = UnaryOp.kind op ∧ Yields (unary p) ts operand rest noted ∧
        e = .unary op t operand) ∨
      (∀ op, t.kind ≠ UnaryOp.kind op) ∧ Yields p (t :: ts) e rest noted := by
  show unary p (t :: ts) = _ ↔ _
  rw [unary]
  cases hop : UnaryOp.all.find? (·.kind = t.kind) with
  | some op =>
    have hk := UnaryOp.find?_all.1 hop
    rcases hu : unary p ts with ⟨r, mid, before⟩
    constructor
    · intro h
      rcases r with _ | operand
      · simp [Outcome.map, Except.map] at h
      · simp only [Outcome.map, Except.map, Outcome.mk.injEq, Except.ok.injEq] at h
        obtain ⟨rfl, rfl, rfl⟩ := h
        exact .inl ⟨op, operand, hk, hu, rfl⟩
    · rintro (⟨op', operand, hk', hu', rfl⟩ | ⟨hno, -⟩)
      · obtain rfl : op = op' := by
          have h := UnaryOp.find?_all.2 hk'
          rw [hop] at h
          simpa using h
        obtain ⟨rfl, rfl, rfl⟩ := Outcome.mk.inj (hu.symm.trans hu')
        rfl
      · exact absurd hk (hno op)
  | none =>
    have hno (op : UnaryOp) : t.kind ≠ op.kind := fun hk => by
      simp [UnaryOp.find?_all.2 hk] at hop
    constructor
    · intro h
      exact .inr ⟨hno, h⟩
    · rintro (⟨op, _, hk, -⟩ | ⟨-, h⟩)
      · exact absurd hk (hno op)
      · exact h

theorem yields_operations {level : Level} {operand : Parser Expr} {r : Token}
    {rounds ts rest : List Token} {left e : Expr} {noted : List Complaint} :
    Yields (operations level operand (r :: rounds) left) ts e rest noted ↔
      ((∀ t ∈ ts.head?, level t = none) ∧ e = left ∧ rest = ts ∧ noted = []) ∨
      ∃ t more build right mid before after, ts = t :: more ∧ level t = some build ∧
        Yields operand more right mid before ∧
        Yields (operations level operand rounds (build left right)) mid e rest after ∧
        noted = before ++ after := by
  show operations level operand (r :: rounds) left ts = _ ↔ _
  rw [operations]
  cases ts with
  | nil => simp only [Outcome.mk.injEq, Except.ok.injEq]; grind
  | cons t more =>
    dsimp only
    cases hl : level t with
    | none => simp only [Outcome.mk.injEq, Except.ok.injEq]; grind
    | some build =>
      show Yields (operand >>= _) more e rest noted ↔ _
      rw [yields_bind]
      constructor
      · rintro ⟨right, mid, before, after, h, h', rfl⟩
        exact .inr ⟨t, more, build, right, mid, before, after, rfl, hl, h, h', rfl⟩
      · rintro (⟨hno, -⟩ | ⟨u, us, build', right, mid, before, after, hu, hl', h, h', rfl⟩)
        · simp [hl] at hno
        · obtain ⟨rfl, rfl⟩ := List.cons.inj hu
          obtain rfl : build = build' := by simpa [hl] using hl'
          exact ⟨right, mid, before, after, h, h', rfl⟩

theorem Shrinks.of_yields {α : Type} {p : Parser α} (hp : Shrinks p) {ts rest : List Token} {a : α}
    {noted : List Complaint} (h : Yields p ts a rest noted) : rest.length ≤ ts.length := by
  have hrest := hp ts
  rw [show p ts = _ from h] at hrest
  exact hrest

theorem yields_loop_more {level : Level} {operand : Parser Expr} (hs : Shrinks operand)
    {t : Token} {more mid rest : List Token} {build : Expr → Expr → Expr} {left right e : Expr}
    {before after : List Complaint} (hl : level t = some build)
    (h : Yields operand more right mid before)
    (h' : Yields (loop level operand (build left right)) mid e rest after) :
    Yields (loop level operand left) (t :: more) e rest (before ++ after) := by
  refine (yields_operations (r := t)).2 (.inr ⟨t, more, build, right, mid, before, after, rfl, hl, h, ?_, rfl⟩)
  exact (operations_eq hs more mid mid _ (hs.of_yields h) (Nat.le_refl _)).trans h'

theorem yields_loop_done {level : Level} {operand : Parser Expr} {ts : List Token} {left : Expr}
    (hno : ∀ t ∈ ts.head?, level t = none) :
    Yields (loop level operand left) ts left ts [] := by
  cases ts with
  | nil => rfl
  | cons t ts => exact (yields_operations (r := t)).2 (.inl ⟨hno, rfl, rfl, rfl⟩)

theorem yields_assignment {p : Parser Expr} {ts rest : List Token} {e : Expr}
    {noted : List Complaint} :
    Yields (assignment p) ts e rest noted ↔
      (Yields (disjunction p) ts e rest noted ∧ ∀ t ∈ rest.head?, t.kind ≠ .equal) ∨
      ∃ left equals us value before after, Yields (disjunction p) ts left (equals :: us) before ∧
        equals.kind = .equal ∧ Yields p us value rest after ∧
        ((∃ name, left = .var name ∧ e = .assign name value ∧ noted = before ++ after) ∨
          (∀ name, left ≠ .var name) ∧ e = left ∧
            noted = before ++ (after ++ [⟨.invalidAssignmentTarget, some equals⟩])) := by
  unfold assignment
  rw [yields_bind]
  constructor
  · rintro ⟨left, mid, before, _, hd, h, rfl⟩
    rcases yields_accept_bind.1 h with ⟨hno, h⟩ | ⟨equals, us, rfl, hk, htail⟩
    · obtain ⟨rfl, rfl, rfl⟩ := yields_pure.1 h
      exact .inl ⟨by simpa using hd, hno⟩
    · obtain ⟨value, stop, after, _, hv, hlast, rfl⟩ := yields_bind.1 htail
      cases left with
      | var name =>
        obtain ⟨rfl, rfl, rfl⟩ := yields_pure.1 hlast
        exact .inr ⟨_, equals, us, value, before, after, hd, hk, hv,
          .inl ⟨name, rfl, rfl, by simp⟩⟩
      | _ =>
        obtain ⟨_, _, _, _, hn, hend, rfl⟩ := yields_bind.1 hlast
        obtain ⟨rfl, rfl⟩ := yields_note.1 hn
        obtain ⟨rfl, rfl, rfl⟩ := yields_pure.1 hend
        exact .inr ⟨_, equals, us, value, before, after, hd, hk, hv,
          .inr ⟨by simp, rfl, by simp⟩⟩
  · rintro (⟨hd, hno⟩ | ⟨left, equals, us, value, before, after, hd, hk, hv, h⟩)
    · exact ⟨e, rest, noted, [], hd,
        yields_accept_bind.2 (.inl ⟨hno, yields_pure.2 ⟨rfl, rfl, rfl⟩⟩), by simp⟩
    · rcases h with ⟨name, rfl, rfl, rfl⟩ | ⟨hne, rfl, rfl⟩
      · refine ⟨_, _, before, after, hd, yields_accept_bind.2 (.inr ⟨equals, us, rfl, hk, ?_⟩), rfl⟩
        exact yields_bind.2 ⟨value, rest, after, [], hv, yields_pure.2 ⟨rfl, rfl, rfl⟩, by simp⟩
      · refine ⟨_, _, before, _, hd, yields_accept_bind.2 (.inr ⟨equals, us, rfl, hk, ?_⟩), rfl⟩
        refine yields_bind.2 ⟨value, rest, after, _, hv, ?_, rfl⟩
        have hnote : Yields (note .invalidAssignmentTarget equals >>= fun _ => pure e) rest e rest
            [⟨.invalidAssignmentTarget, some equals⟩] :=
          yields_bind.2 ⟨(), rest, _, [], yields_note.2 ⟨rfl, rfl⟩,
            yields_pure.2 ⟨rfl, rfl, rfl⟩, rfl⟩
        cases e with
        | var name => exact absurd rfl (hne name)
        | _ => exact hnote

/-! ## What is parsed is derived -/

/-- The complaint about a target that is not a name. -/
def badTarget (equals : Token) : Complaint := ⟨.invalidAssignmentTarget, some equals⟩

def Sound (p : Parser Expr) (symbol : Symbol) : Prop :=
  ∀ ts e rest noted, Yields p ts e rest noted →
    ∃ used bad, ts = used ++ rest ∧ Derives relaxed symbol used e bad ∧
      noted.Perm (bad.map badTarget)

theorem sound_primary {p : Parser Expr} (hp : Sound p .assignment) :
    Sound (primary p) .primary := by
  intro ts e rest noted h
  rcases yields_primary.1 h with ⟨t, rfl, ht, rfl⟩ | ⟨o, c, us, inner, rfl, -, ho, hin, hc, rfl⟩
  · exact ⟨[t], [], rfl, derives_of_ofToken? ht, .refl _⟩
  · obtain ⟨used, bad, rfl, hd, hperm⟩ := hp _ _ _ _ hin
    exact ⟨o :: used ++ [c], bad, by simp, .group ho hd hc, hperm⟩

theorem sound_unary {p : Parser Expr} (hp : Sound p .primary) : Sound (unary p) .unary := by
  intro ts
  induction ts with
  | nil =>
    intro e rest noted h
    obtain ⟨used, bad, hts, hd, hperm⟩ := hp _ _ _ _ h
    exact ⟨used, bad, hts, .primary hd, hperm⟩
  | cons t ts ih =>
    intro e rest noted h
    rcases yields_unary.1 h with ⟨op, operand, hk, hop, rfl⟩ | ⟨-, hprim⟩
    · obtain ⟨used, bad, rfl, hd, hperm⟩ := ih _ _ _ hop
      exact ⟨t :: used, bad, rfl, .unary hk hd, hperm⟩
    · obtain ⟨used, bad, hts, hd, hperm⟩ := hp _ _ _ _ hprim
      exact ⟨used, bad, hts, .primary hd, hperm⟩

theorem sound_operations {operand : Parser Expr} {l : Grammar.Level}
    (hp : Sound operand l.operand) : ∀ rounds left,
      Sound (operations (operatorsOf l) operand rounds left) (.more l left)
  | [], left => by
    intro ts e rest noted h
    obtain ⟨rfl, rfl, rfl⟩ := yields_pure.1 h
    exact ⟨[], [], rfl, .done, .refl _⟩
  | _ :: rounds, left => by
    intro ts e rest noted h
    rcases yields_operations.1 h with
      ⟨-, rfl, rfl, rfl⟩ | ⟨t, more, build, right, mid, before, after, rfl, hl, hright, hmore, rfl⟩
    · exact ⟨[], [], rfl, .done, .refl _⟩
    · rw [operatorsOf_apply] at hl
      obtain ⟨node, hnode, rfl⟩ := Option.map_eq_some_iff.1 hl
      obtain ⟨used, bad, rfl, hd, hperm⟩ := hp _ _ _ _ hright
      obtain ⟨used', bad', rfl, hd', hperm'⟩ := sound_operations hp rounds _ _ _ _ _ hmore
      refine ⟨t :: used ++ used', bad ++ bad', by simp, .more hnode hd hd', ?_⟩
      rw [List.map_append]
      exact hperm.append hperm'

theorem sound_chain {operand : Parser Expr} {l : Grammar.Level} (hp : Sound operand l.operand) :
    Sound (chain (operatorsOf l) operand) (.level l) := by
  intro ts e rest noted h
  obtain ⟨left, mid, before, after, hleft, hmore, rfl⟩ := yields_bind.1 h
  obtain ⟨used, bad, rfl, hd, hperm⟩ := hp _ _ _ _ hleft
  obtain ⟨used', bad', rfl, hd', hperm'⟩ := sound_operations hp mid left _ _ _ _ hmore
  refine ⟨used ++ used', bad ++ bad', by simp, .level hd hd', ?_⟩
  rw [List.map_append]
  exact hperm.append hperm'

theorem sound_disjunction {p : Parser Expr} (hp : Sound p .assignment) :
    Sound (disjunction p) (.level .or) := by
  have h0 : Sound (unary (primary p)) .unary := sound_unary (sound_primary hp)
  have h1 : Sound (factor p) (.level .factor) := sound_chain (l := .factor) h0
  have h2 : Sound (term p) (.level .term) := sound_chain (l := .term) h1
  have h3 : Sound (comparison p) (.level .comparison) := sound_chain (l := .comparison) h2
  have h4 : Sound (equality p) (.level .equality) := sound_chain (l := .equality) h3
  have h5 : Sound (conjunction p) (.level .and) := sound_chain (l := .and) h4
  exact sound_chain (l := .or) h5

theorem sound_assignment {p : Parser Expr} (hp : Sound p .assignment) :
    Sound (assignment p) .assignment := by
  intro ts e rest noted h
  rcases yields_assignment.1 h with
    ⟨hor, -⟩ | ⟨left, equals, us, value, before, after, hleft, hk, hvalue, hcase⟩
  · obtain ⟨used, bad, hts, hd, hperm⟩ := sound_disjunction hp _ _ _ _ hor
    exact ⟨used, bad, hts, .operand hd, hperm⟩
  · obtain ⟨used, bad, rfl, hd, hperm⟩ := sound_disjunction hp _ _ _ _ hleft
    obtain ⟨used', bad', rfl, hd', hperm'⟩ := hp _ _ _ _ hvalue
    rcases hcase with ⟨name, rfl, rfl, rfl⟩ | ⟨hne, rfl, rfl⟩
    · obtain ⟨rfl, hname, rfl⟩ := hd.eq_name rfl trivial (by simp)
      refine ⟨name :: equals :: used', bad', by simp, .assign hname hk hd', ?_⟩
      rw [List.perm_nil.1 hperm]
      exact hperm'
    · refine ⟨used ++ equals :: used', bad ++ equals :: bad', by simp,
        .badAssign rfl hd ?_ hk hd', ?_⟩
      · rintro name hname rfl
        exact hne name (hd.eq_var rfl hname trivial)
      · rw [List.map_append, List.map_cons]
        exact hperm.append ((List.perm_append_singleton _ _).trans (hperm'.cons _))

theorem expression_sound : Sound expression .assignment := by
  have h : ∀ rounds, Sound (levels assignment rounds) .assignment := by
    intro rounds
    induction rounds with
    | nil => exact sound_assignment fun _ _ _ _ h => absurd h not_yields_fail
    | cons _ rounds ih => exact sound_assignment ih
  exact fun ts => h ts ts

/-! ## What is derived is parsed -/

theorem operatorsOf_eq_none {l : Grammar.Level} {left : Expr} {rest : List Token}
    (h : (Symbol.more l left).Ends rest) : ∀ t ∈ rest.head?, operatorsOf l t = none := by
  intro t ht
  rw [operatorsOf_apply]
  cases hn : l.node? t.kind with
  | none => rfl
  | some node => exact absurd ⟨l, Nat.le_refl _, by simp [hn]⟩ (h t ht)

theorem yields_chain {l : Grammar.Level} {operand : Parser Expr} {ts rest : List Token} {e : Expr}
    {noted : List Complaint} (h : Yields operand ts e rest noted)
    (hrest : ∀ t ∈ rest.head?, operatorsOf l t = none) :
    Yields (chain (operatorsOf l) operand) ts e rest noted :=
  yields_bind.2 ⟨e, rest, noted, [], h, yields_loop_done hrest, by simp⟩

theorem yields_target {p : Parser Expr} {name equals : Token} (us : List Token)
    (hname : name.kind = .identifier) (hk : equals.kind = .equal) :
    Yields (disjunction p) (name :: equals :: us) (.var name) (equals :: us) [] := by
  have hno (l : Grammar.Level) : ∀ t ∈ (equals :: us).head?, operatorsOf l t = none := by
    intro t ht
    obtain rfl : equals = t := by simpa using ht
    rw [operatorsOf_apply, hk]
    cases l <;> rfl
  have h0 : Yields (unary (primary p)) (name :: equals :: us) (.var name) (equals :: us) [] := by
    refine yields_unary.2 (.inr ⟨?_, yields_primary.2 (.inl ⟨name, rfl, ?_, rfl⟩)⟩)
    · intro op
      rw [hname]
      cases op <;> simp [UnaryOp.kind]
    · simp [Expr.ofToken?, hname]
  have h1 : Yields (factor p) _ _ _ _ := yields_chain h0 (hno .factor)
  have h2 : Yields (term p) _ _ _ _ := yields_chain h1 (hno .term)
  have h3 : Yields (comparison p) _ _ _ _ := yields_chain h2 (hno .comparison)
  have h4 : Yields (equality p) _ _ _ _ := yields_chain h3 (hno .equality)
  have h5 : Yields (conjunction p) _ _ _ _ := yields_chain h4 (hno .and)
  exact yields_chain h5 (hno .or)

theorem not_unaryOp_of_yields_primary {p : Parser Expr} {t : Token} {ts rest : List Token}
    {e : Expr} {noted : List Complaint} (h : Yields (primary p) (t :: ts) e rest noted)
    (op : UnaryOp) : t.kind ≠ op.kind := by
  intro hk
  have hnone : Expr.ofToken? t = none := by
    unfold Expr.ofToken?
    cases op <;> simp [hk, UnaryOp.kind]
  rcases yields_primary.1 h with ⟨u, hu, he, -⟩ | ⟨o, c, us, inner, hu, -, ho, -⟩
  · obtain ⟨rfl, -⟩ := List.cons.inj hu
    simp [hnone] at he
  · obtain ⟨rfl, -⟩ := List.cons.inj hu
    rw [ho] at hk
    cases op <;> simp [UnaryOp.kind] at hk

theorem phrase_complete {rules : Grammar.Rules} {symbol : Symbol} {ts bad : List Token} {e : Expr}
    (h : Derives rules symbol ts e bad) {rest : List Token} (hrest : symbol.Ends rest) :
    ∃ noted, Yields (phrase expression symbol) (ts ++ rest) e rest noted ∧
      noted.Perm (bad.map badTarget) := by
  induction h generalizing rest with
  | falseWord hk | trueWord hk | nilWord hk | name hk =>
    exact ⟨[], yields_primary.2 (.inl ⟨_, rfl, by simp [Expr.ofToken?, hk], rfl⟩), .refl _⟩
  | number hk =>
    exact ⟨[], yields_primary.2 (.inl ⟨_, rfl, ofToken?_literal (.inl hk), rfl⟩), .refl _⟩
  | string hk =>
    exact ⟨[], yields_primary.2 (.inl ⟨_, rfl, ofToken?_literal (.inr hk), rfl⟩), .refl _⟩
  | @group o c ts e bad ho _ hc ih =>
    obtain ⟨noted, h, hperm⟩ := ih (Grammar.ends_assignment (.inl hc) rest)
    rw [phrase, ← expression_eq] at h
    refine ⟨noted, yields_primary.2 (.inr ⟨o, c, ts ++ c :: rest, e, by simp, ?_, ho, h, hc, rfl⟩),
      hperm⟩
    simp [Expr.ofToken?, ho]
  | unary hk _ ih =>
    obtain ⟨noted, h, hperm⟩ := ih hrest
    exact ⟨noted, yields_unary.2 (.inl ⟨_, _, hk, h, rfl⟩), hperm⟩
  | @primary ts e bad hd ih =>
    have hends : Symbol.primary.Ends rest := fun _ _ h => h.elim
    obtain ⟨noted, h, hperm⟩ := ih hends
    refine ⟨noted, ?_, hperm⟩
    cases ts with
    | nil => exact absurd rfl (hd.ne_nil trivial)
    | cons t ts => exact yields_unary.2 (.inr ⟨not_unaryOp_of_yields_primary h, h⟩)
  | @level l ts us first e bad bad' _ hmore ihfirst ih =>
    obtain ⟨before, hfirst, hperm⟩ := ihfirst (hmore.ends_operand hrest)
    obtain ⟨after, h, hperm'⟩ := ih hrest
    rw [phrase_operand] at hfirst
    refine ⟨before ++ after, ?_, ?_⟩
    · rw [List.append_assoc]
      exact yields_bind.2 ⟨first, us ++ rest, before, after, hfirst, h, rfl⟩
    · rw [List.map_append]
      exact hperm.append hperm'
  | done => exact ⟨[], yields_loop_done (operatorsOf_eq_none hrest), .refl _⟩
  | @more l left t node ts us right e bad bad' hn _ hmore ihright ih =>
    obtain ⟨before, hright, hperm⟩ := ihright (hmore.ends_operand hrest)
    obtain ⟨after, h, hperm'⟩ := ih hrest
    rw [phrase_operand] at hright
    refine ⟨before ++ after, ?_, ?_⟩
    · rw [List.append_assoc]
      refine yields_loop_more (shrinks_operandOf shrinks_expression l) ?_ hright h
      rw [operatorsOf_apply, hn]
      rfl
    · rw [List.map_append]
      exact hperm.append hperm'
  | operand _ ih =>
    have hends : (Symbol.level .or).Ends rest := fun t ht hl =>
      hrest t ht (.inr (hl.imp fun _ h => h.2))
    obtain ⟨noted, h, hperm⟩ := ih hends
    exact ⟨noted, yields_assignment.2 (.inl ⟨h, fun t ht hk => hrest t ht (.inl hk)⟩), hperm⟩
  | @assign name equals ts e bad hname hk _ ih =>
    obtain ⟨noted, h, hperm⟩ := ih hrest
    rw [phrase, ← expression_eq] at h
    exact ⟨noted, yields_assignment.2 (.inr ⟨.var name, equals, ts ++ rest, e, [], noted,
      yields_target _ hname hk, hk, h, .inl ⟨name, rfl, rfl, rfl⟩⟩), hperm⟩
  | @badAssign equals ts us left e bad bad' _ hleft hne hk _ ihleft ih =>
    have hends : (Symbol.level .or).Ends (equals :: (us ++ rest)) := by
      intro t ht
      obtain rfl : equals = t := by simpa using ht
      rintro ⟨l, -, h⟩
      rw [hk] at h
      cases l <;> cases h
    obtain ⟨before, hor, hperm⟩ := ihleft hends
    obtain ⟨after, h, hperm'⟩ := ih hrest
    rw [phrase, ← expression_eq] at h
    refine ⟨before ++ (after ++ [badTarget equals]), ?_, ?_⟩
    · rw [List.append_assoc]
      refine yields_assignment.2 (.inr ⟨left, equals, us ++ rest, e, before, after, hor, hk, h,
        .inr ⟨?_, rfl, rfl⟩⟩)
      rintro name rfl
      obtain ⟨rfl, hname, -⟩ := hleft.eq_name rfl trivial (by simp)
      exact hne name hname rfl
    · rw [List.map_append, List.map_cons]
      exact hperm.append ((List.perm_append_singleton _ _).trans (hperm'.cons _))

theorem expression_complete {rules : Grammar.Rules} {ts bad rest : List Token} {e : Expr}
    (h : Derives rules .assignment ts e bad) (hrest : Symbol.assignment.Ends rest) :
    ∃ noted, Yields expression (ts ++ rest) e rest noted ∧ noted.Perm (bad.map badTarget) := by
  rw [expression_eq]
  exact phrase_complete h hrest

/-! ## A single expression -/

theorem parseExpression_eq_ok {tokens : List Token} {e : Expr} :
    parseExpression tokens = .ok e ↔ Yields expression (beforeEnd tokens) e [] [] := by
  unfold parseExpression
  dsimp only
  generalize ho : (expression >>= fun e => finish .endOfExpression >>= fun _ =>
    pure e : Parser Expr) (beforeEnd tokens) = o
  constructor
  · intro h
    obtain ⟨result, rest, complaints⟩ := o
    split at h
    · next e' hresult hcomplaints =>
      cases h
      cases hresult
      cases hcomplaints
      obtain ⟨e', _, before, after, hexpr, hfinish, hnoted⟩ := yields_bind.1 ho
      obtain ⟨_, _, _, _, hend, hpure, -⟩ := yields_bind.1 hfinish
      obtain ⟨rfl, rfl, -⟩ := yields_finish.1 hend
      obtain ⟨rfl, -, -⟩ := yields_pure.1 hpure
      obtain ⟨rfl, -⟩ := List.append_eq_nil_iff.1 hnoted.symm
      exact hexpr
    · cases h
  · intro h
    have hwhole : Yields (expression >>= fun e => finish .endOfExpression >>= fun _ => pure e)
        (beforeEnd tokens) e [] [] :=
      yields_bind.2 ⟨e, [], [], [], h, yields_bind.2 ⟨(), [], [], [],
        yields_finish.2 ⟨rfl, rfl, rfl⟩, yields_pure.2 ⟨rfl, rfl, rfl⟩, rfl⟩, rfl⟩
    obtain rfl := ho.symm.trans hwhole
    rfl

theorem parseExpression_eq_ok_iff {tokens : List Token} {e : Expr} :
    parseExpression tokens = .ok e ↔
      Derives Grammar.strict .assignment (beforeEnd tokens) e [] := by
  rw [parseExpression_eq_ok]
  constructor
  · intro h
    obtain ⟨used, bad, hused, hd, hperm⟩ := expression_sound _ _ _ _ h
    obtain rfl : bad = [] := List.map_eq_nil_iff.1 (List.nil_perm.1 hperm)
    rw [List.append_nil] at hused
    exact hused ▸ hd.of_rules (.inl rfl)
  · intro hd
    have hends : Symbol.assignment.Ends [] := nofun
    obtain ⟨noted, hy, hperm⟩ := expression_complete hd hends
    obtain rfl : noted = [] := List.perm_nil.1 hperm
    rw [List.append_nil] at hy
    exact hy

theorem derives_of_parseExpression {tokens : List Token} {e : Expr}
    (h : parseExpression tokens = .ok e) :
    ∃ bad, Derives relaxed .assignment (beforeEnd tokens) e bad :=
  ⟨[], (parseExpression_eq_ok_iff.1 h).of_rules (.inl rfl)⟩

end Treewalk.Parser
