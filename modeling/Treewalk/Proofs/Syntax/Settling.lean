import Treewalk.Proofs.Syntax.Lookahead

/-!
# Where the parser balks

Any tokens start with something that the grammar derives and that ends there, or the parser balks
inside something that the grammar derives. One lemma a function of the parser says so, and each
follows its function step by step.
-/

namespace Treewalk

namespace Grammar

theorem derives_sample :
    Derives relaxed .assignment [sample .identifier] (.var (sample .identifier)) [] := by
  have h0 : Derives relaxed .unary [sample .identifier] _ [] := .primary (.name rfl)
  have h1 := Derives.level (l := .factor) h0 .done
  have h2 := Derives.level (l := .term) h1 .done
  have h3 := Derives.level (l := .comparison) h2 .done
  have h4 := Derives.level (l := .equality) h3 .done
  have h5 := Derives.level (l := .and) h4 .done
  exact .operand (.level (l := .or) h5 .done)

theorem Symbol.ends_more {l : Level} {left : Expr} {rest : List Token} (h : l.operand.Ends rest)
    (hno : ∀ t ∈ rest.head?, l.node? t.kind = none) : (Symbol.more l left).Ends rest := by
  rintro t ht ⟨m, hrank, hsome⟩
  have hne : m ≠ l := by
    rintro rfl
    simp [hno t ht] at hsome
  refine h t ht ?_
  cases l <;> cases m <;> first
    | exact absurd rfl hne
    | exact absurd hrank (by decide)
    | exact ⟨_, by decide, hsome⟩

end Grammar

namespace Parser

open Token (Kind)
open Grammar (Derives Symbol Statement Declaration Declarations takesElse relaxed sample)

/-! ## Expressions -/

def DerivedBy (symbol : Symbol) (ts : List Token) (e : Expr) : Prop :=
  ∃ bad, Derives relaxed symbol ts e bad

/-- `Symbol.Ends`, of the next token alone. -/
def EndsBefore (symbol : Symbol) (_ : Expr) (next : Option Token) : Prop :=
  ∀ t ∈ next, ¬ symbol.GoesOn t.kind

/-- The tokens start with the symbol, or its parser balks inside it. -/
def SettledAs (symbol : Symbol) (ts : List Token) : Prop :=
  Settled (phrase expression symbol) (DerivedBy symbol) (EndsBefore symbol) ts

theorem accepts_phrase (symbol : Symbol) :
    Accepts (phrase expression symbol) (DerivedBy symbol) (EndsBefore symbol) := by
  rintro used _ e ⟨bad, hd⟩ hends rest rfl
  obtain ⟨noted, hy, hperm⟩ := phrase_complete hd hends
  exact ⟨noted, hy, clean_of_perm hperm⟩

theorem accepts_operand (l : Grammar.Level) :
    Accepts (operandOf expression l) (DerivedBy l.operand) (EndsBefore l.operand) := by
  rw [← phrase_operand]
  exact accepts_phrase l.operand

theorem accepts_expression :
    Accepts expression (DerivedBy .assignment) (EndsBefore .assignment) := by
  rw [expression_eq]
  exact accepts_phrase .assignment

section

variable {n : Nat} (inner : ∀ ts : List Token, ts.length < n →
  Settled expression (DerivedBy .assignment) (EndsBefore .assignment) ts)

include inner

theorem settled_primary (ts : List Token) (hn : ts.length ≤ n) : SettledAs .primary ts := by
  have hname : DerivedBy .primary [sample .identifier] (.var (sample .identifier)) :=
    ⟨[], .name rfl⟩
  cases ts with
  | nil =>
    refine .balked [] [] _ .expression _ (balks_of_fail fun rest hrest => ?_) hname
    obtain rfl : rest = [] := List.head?_eq_none_iff.1 hrest
    rfl
  | cons t ts =>
    cases ht : Expr.ofToken? t with
    | some e => exact .whole [t] ts e ⟨[], derives_of_ofToken? ht⟩ fun _ _ h => h.elim
    | none =>
      by_cases hk : t.kind = .leftParen
      · have hgroup (us : List Token) : primary expression (t :: us) = (do
            let inner ← expression
            let _ ← expect .rightParen .parenAfterExpression
            pure (Expr.grouping inner) : Parser Expr) us := by
          simp only [primary, ht, hk, if_true]
        refine Settled.cons (Settled.closed (inner ts hn) accepts_expression ?_ ?_) hgroup
        · rintro us e c ⟨bad, hd⟩ hc
          exact ⟨bad, .group hk hd hc⟩
        · exact fun _ _ _ _ h => h.elim
      · refine .balked [] (t :: ts) _ .expression _ (balks_of_fail fun rest hrest => ?_) hname
        obtain ⟨us, rfl⟩ := List.head?_eq_some_iff.1 hrest
        simp only [phrase, primary, ht, hk, if_false]

theorem settled_unary (ts : List Token) (hn : ts.length ≤ n) : SettledAs .unary ts := by
  have hprimary {us : List Token} (hus : us.length ≤ n)
      (hno : ∀ vs, vs.head? = us.head? → unary (primary expression) vs = primary expression vs) :
      SettledAs .unary us :=
    (settled_primary inner us hus).mono hno (fun _ _ ⟨bad, hd⟩ => ⟨bad, .primary hd⟩)
      fun _ _ h => h
  induction ts with
  | nil =>
    refine hprimary hn fun vs hvs => ?_
    obtain rfl : vs = [] := List.head?_eq_none_iff.1 hvs
    rfl
  | cons t ts ih =>
    cases hop : UnaryOp.all.find? (·.kind = t.kind) with
    | some op =>
      have hk := UnaryOp.find?_all.1 hop
      refine Settled.cons ((ih (Nat.le_of_succ_le hn)).map
        (fun us e ⟨bad, hd⟩ => ⟨bad, Derives.unary hk hd⟩) fun _ _ h => h) fun us => ?_
      rw [map_apply]
      simp only [phrase, unary, hop]
    | none =>
      refine hprimary hn fun vs hvs => ?_
      obtain ⟨us, rfl⟩ := List.head?_eq_some_iff.1 hvs
      simp only [unary, hop]

omit inner in
theorem loop_cons {level : Level} {operand : Parser Expr} (hs : Shrinks operand) {t : Token}
    {build : Expr → Expr → Expr} (hl : level t = some build) (left : Expr) (ts : List Token) :
    loop level operand left (t :: ts) =
      (operand >>= fun right => loop level operand (build left right)) ts := by
  show operations level operand (t :: ts) left (t :: ts) = _
  simp only [operations, hl]
  refine agree_bind (n := ts.length + 1) (.refl _ _) hs (fun right us hus => ?_) ts
    (Nat.lt_succ_self _)
  exact operations_eq hs ts us us _ (by omega) (Nat.le_refl _)

omit inner in
theorem settled_more (l : Grammar.Level)
    (operand : ∀ ts : List Token, ts.length ≤ n →
      Settled (operandOf expression l) (DerivedBy l.operand) (EndsBefore l.operand) ts) (left : Expr)
    (ts : List Token) (hn : ts.length ≤ n) (hends : l.operand.Ends ts) :
    SettledAs (.more l left) ts := by
  induction hm : ts.length using Nat.strongRecOn generalizing ts left with
  | ind m ih
  cases ts with
  | nil => exact .here left ⟨[], .done⟩ nofun
  | cons t ts =>
    cases hnode : l.node? t.kind with
    | none =>
      -- No operator of a tighter level stands here: the operand before it has ended.
      refine .here left ⟨[], .done⟩ (Symbol.ends_more hends fun u hu => ?_)
      obtain rfl : t = u := by simpa using hu
      exact hnode
    | some node =>
      have hl : operatorsOf l t = some (node t) := by rw [operatorsOf_apply, hnode]; rfl
      have hright := operand ts (Nat.le_of_succ_le hn)
      refine Settled.cons (Settled.bind hright (accepts_operand l) ?_ ?_)
        (loop_cons (shrinks_operandOf shrinks_expression l) hl left)
      · rintro us right ⟨bad, hd⟩
        exact ⟨[], _, _, .more hnode hd .done⟩
      · rintro us right rest rfl ⟨bad, hd⟩ hrest
        simp only [List.length_cons, List.length_append] at hn hm
        exact (ih rest.length (by omega) (node t left right) rest (by omega) hrest rfl).mono
          (fun _ _ => rfl) (fun vs e ⟨bad', hmore⟩ => ⟨bad ++ bad', .more hnode hd hmore⟩)
          fun _ _ h => h

omit inner in
theorem settled_level (l : Grammar.Level)
    (operand : ∀ ts : List Token, ts.length ≤ n →
      Settled (operandOf expression l) (DerivedBy l.operand) (EndsBefore l.operand) ts)
    (ts : List Token) (hn : ts.length ≤ n) : SettledAs (.level l) ts := by
  refine Settled.bind (operand ts hn) (accepts_operand l) ?_ ?_
  · rintro us first ⟨bad, hd⟩
    exact ⟨[], _, _, .level hd .done⟩
  · rintro us first rest rfl ⟨bad, hd⟩ hrest
    refine (settled_more l operand first rest ?_ hrest).mono (fun _ _ => rfl)
      (fun vs e ⟨bad', hmore⟩ => ⟨bad ++ bad', .level hd hmore⟩) fun _ _ h => h
    simp at hn
    omega

theorem settled_or (ts : List Token) (hn : ts.length ≤ n) : SettledAs (.level .or) ts := by
  have h1 := settled_level .factor (settled_unary inner)
  have h2 := settled_level .term h1
  have h3 := settled_level .comparison h2
  have h4 := settled_level .equality h3
  have h5 := settled_level .and h4
  exact settled_level .or h5 ts hn

omit inner in
theorem derivedBy_assignment {us ws : List Token} {left value : Expr} {equals : Token}
    (hleft : DerivedBy (.level .or) us left) (hk : equals.kind = .equal)
    (hvalue : DerivedBy .assignment ws value) :
    ∃ e, DerivedBy .assignment (us ++ equals :: ws) e := by
  obtain ⟨bad, hd⟩ := hleft
  obtain ⟨bad', hd'⟩ := hvalue
  by_cases hname : ∃ name : Token, name.kind = .identifier ∧ us = [name]
  · obtain ⟨name, hn, rfl⟩ := hname
    exact ⟨_, _, .assign hn hk hd'⟩
  · exact ⟨_, _, .badAssign rfl hd (fun name hn hus => hname ⟨name, hn, hus⟩) hk hd'⟩

theorem settled_assignment (ts : List Token) (hn : ts.length ≤ n) : SettledAs .assignment ts := by
  refine Settled.bind (settled_or inner ts hn) (accepts_phrase (.level .or)) ?_ ?_
  · rintro us left ⟨bad, hd⟩
    exact ⟨[], left, bad, by simpa using .operand hd⟩
  · rintro us left rest rfl hleft hrest
    refine Settled.accept_bind (fun hno => ?_) fun equals vs hvs hk => ?_
    · obtain ⟨bad, hd⟩ := hleft
      refine .here left ⟨bad, by simpa using .operand hd⟩ fun t ht => ?_
      rintro (hequal | ⟨l, hl⟩)
      · exact hno t ht hequal
      · exact hrest t ht ⟨l, Nat.zero_le _, hl⟩
    · subst hvs
      have hlen : vs.length < n := by
        simp only [List.length_append, List.length_cons] at hn
        omega
      refine Settled.bind (inner vs hlen) accepts_expression ?_ ?_
      · intro ws value hvalue
        obtain ⟨e, he⟩ := derivedBy_assignment hleft hk hvalue
        exact ⟨[], e, by simpa using he⟩
      · intro ws value rest _ hvalue hends
        obtain ⟨e, he⟩ := derivedBy_assignment hleft hk hvalue
        exact .here e (by simpa using he) hends

end

theorem settled_expression (ts : List Token) :
    Settled expression (DerivedBy .assignment) (EndsBefore .assignment) ts := by
  induction hn : ts.length using Nat.strongRecOn generalizing ts with
  | ind n ih
  rw [expression_eq]
  exact settled_assignment (fun us hus => ih us.length hus us rfl) ts (Nat.le_of_eq hn)

/-! ## Statements -/

def DerivedStatement (ts : List Token) (s : Stmt) : Prop := ∃ bad, Statement relaxed ts s bad

def DerivedDeclaration (ts : List Token) (s : Stmt) : Prop := ∃ bad, Declaration relaxed ts s bad

def DerivedBody (ts : List Token) (body : List Stmt) : Prop :=
  ∃ bad, Declarations relaxed ts body bad

/-- An `else` that it would take does not follow. -/
def LeavesElse (s : Stmt) (next : Option Token) : Prop :=
  takesElse s = true → ∀ t ∈ next, t.kind ≠ .elseKw

def StopsBefore (stop : Option Kind) (_ : List Stmt) (next : Option Token) : Prop :=
  ∀ t ∈ next, stop = some t.kind

theorem accepts_statement : Accepts statement DerivedStatement LeavesElse := by
  rintro used _ s ⟨bad, hd⟩ hends rest rfl
  obtain ⟨noted, hy, hperm⟩ := statement_complete rfl hd hends
  exact ⟨noted, hy, clean_of_perm hperm⟩

theorem accepts_declaration : Accepts (declaration statement) DerivedDeclaration LeavesElse := by
  rintro used _ s ⟨bad, hd⟩ hends rest rfl
  obtain ⟨noted, hy, hperm⟩ := declaration_complete rfl hd hends
  exact ⟨noted, hy, clean_of_perm hperm⟩

theorem accepts_declarations {stop : Option Kind} (hstop : stop = none ∨ stop = some .rightBrace) :
    Accepts (bounded (declarations stop statement)) DerivedBody (StopsBefore stop) := by
  rintro used _ body ⟨bad, hd⟩ hends rest rfl
  obtain ⟨noted, hy, hperm⟩ := declarations_complete rfl hd hstop hends (used ++ rest) (by simp)
  exact ⟨noted, hy, clean_of_perm hperm⟩

theorem derivedStatement_sample :
    DerivedStatement [sample .identifier, sample .semicolon]
      (.expression (.var (sample .identifier))) :=
  ⟨[], .expression Grammar.derives_sample rfl⟩

theorem settled_expressionStatement (ts : List Token) :
    Settled expressionStatement DerivedStatement LeavesElse ts :=
  (settled_expression ts).closed accepts_expression
    (fun _ _ _ ⟨bad, hd⟩ hs => ⟨bad, .expression hd hs⟩) fun _ _ => nofun

theorem settled_printTail {keyword : Token} (hk : keyword.kind = .printKw) (ts : List Token) :
    Settled (printTail keyword) (fun us s => DerivedStatement (keyword :: us) s) LeavesElse ts :=
  (settled_expression ts).closed accepts_expression
    (fun _ _ _ ⟨bad, hd⟩ hs => ⟨bad, .print hk hd hs⟩) fun _ _ => nofun

theorem settled_declarationTail {v : Token} (hv : v.kind = .varKw) (ts : List Token) :
    Settled declarationTail (fun us s => DerivedDeclaration (v :: us) s) LeavesElse ts := by
  have hplain {name : Token} (hname : name.kind = .identifier) {semi : Token}
      (hs : semi.kind = .semicolon) : DerivedDeclaration [v, name, semi] (.declare name none) :=
    ⟨[], .var hv hname hs⟩
  refine Settled.expect_bind ⟨[sample .identifier, sample .semicolon], _, hplain rfl rfl⟩
    fun name us _ hname => ?_
  refine Settled.accept_bind (fun _ => ?_) fun equals vs _ hk => ?_
  · refine Settled.expect_bind ⟨[sample .semicolon], _, hplain hname rfl⟩ fun semi _ _ hs => ?_
    exact .here _ (hplain hname hs) nofun
  · dsimp only
    rw [map_bind]
    exact (settled_expression vs).closed accepts_expression
      (fun _ _ _ ⟨bad, hd⟩ hs => ⟨bad, .init hv hname hk hd hs⟩) fun _ _ => nofun

theorem settled_condition {what what' : Expectation} {k : Expr → Parser Stmt}
    {derives : List Token → Stmt → Prop} {ends : Stmt → Option Token → Prop} (ts : List Token)
    (hope : ∀ o us e c, o.kind = .leftParen → DerivedBy .assignment us e → c.kind = .rightParen →
      ∃ more s, derives (o :: (us ++ c :: more)) s)
    (hk : ∀ o us e c vs, ts = o :: (us ++ c :: vs) → o.kind = .leftParen →
      DerivedBy .assignment us e → c.kind = .rightParen →
      Settled (k e) (fun ws s => derives (o :: (us ++ c :: ws)) s) ends vs) :
    Settled (expect .leftParen what >>= fun _ => expression >>= fun e =>
      expect .rightParen what' >>= fun _ => k e) derives ends ts := by
  have hclose {o : Token} (ho : o.kind = .leftParen) {us : List Token} {e : Expr}
      (hd : DerivedBy .assignment us e) : ∃ more s, derives (o :: (us ++ more)) s := by
    obtain ⟨more, s, h⟩ := hope o us e (sample .rightParen) ho hd rfl
    exact ⟨_, s, h⟩
  have hopen : ∃ more s, derives more s := by
    obtain ⟨more, s, h⟩ := hclose (o := sample .leftParen) rfl ⟨[], Grammar.derives_sample⟩
    exact ⟨_, s, h⟩
  refine Settled.expect_bind hopen fun o us hus ho => ?_
  refine (settled_expression us).bind accepts_expression (fun _ _ hd => hclose ho hd) ?_
  intro used e rest hused hd _
  refine Settled.expect_bind (hclose ho hd) fun c vs hvs hc => ?_
  subst hus hused hvs
  exact hk o used e c vs rfl ho hd hc

section

variable {n : Nat} (inner : ∀ ts : List Token, ts.length < n →
  Settled statement DerivedStatement LeavesElse ts)

include inner

theorem settled_whileTail {w : Token} (hw : w.kind = .whileKw) (ts : List Token)
    (hn : ts.length < n) :
    Settled (whileTail statement) (fun us s => DerivedStatement (w :: us) s) LeavesElse ts := by
  refine settled_condition ts ?_ ?_
  · rintro o us e c ho ⟨bad, hd⟩ hc
    obtain ⟨bad', hs⟩ := derivedStatement_sample
    exact ⟨_, _, _, .loop hw ho hd hc hs⟩
  · rintro o us e c vs rfl ho ⟨bad, hd⟩ hc
    have hvs : vs.length < n := by
      simp only [List.length_append, List.length_cons] at hn
      omega
    exact (inner vs hvs).map (fun ws s ⟨bad', hs⟩ => ⟨_, .loop hw ho hd hc hs⟩) fun _ _ h => h

theorem settled_ifTail {i : Token} (hi : i.kind = .ifKw) (ts : List Token) (hn : ts.length < n) :
    Settled (ifTail statement) (fun us s => DerivedStatement (i :: us) s) LeavesElse ts := by
  refine settled_condition ts ?_ ?_
  · rintro o us e c ho ⟨bad, hd⟩ hc
    obtain ⟨bad', hs⟩ := derivedStatement_sample
    exact ⟨_, _, _, .ifThen hi ho hd hc hs⟩
  · rintro o us e c vs rfl ho ⟨bad, hd⟩ hc
    simp only [List.length_append, List.length_cons] at hn
    have hthen {ws : List Token} {yes : Stmt} (hyes : DerivedStatement ws yes) :
        DerivedStatement (i :: o :: (us ++ c :: (ws ++ []))) (.ifThen e yes) := by
      obtain ⟨bad', hs⟩ := hyes
      rw [List.append_nil]
      exact ⟨_, .ifThen hi ho hd hc hs⟩
    refine (inner vs (by omega)).bind accepts_statement (fun _ _ hyes => ⟨[], _, hthen hyes⟩) ?_
    rintro ws yes rest rfl hyes htakes
    refine Settled.accept_bind (fun hno => .here _ (hthen hyes) fun _ => hno) ?_
    rintro other xs rfl hk
    simp only [List.length_append, List.length_cons] at hn
    -- The `else` is left over, so no `if` inside the branch could take it.
    have hclosed : takesElse yes = false := by
      cases h : takesElse yes with
      | false => rfl
      | true => exact absurd hk (htakes h other rfl)
    refine (inner xs (by omega)).map (fun us' no hno => ?_) fun _ _ h => h
    obtain ⟨bad', hyes⟩ := hyes
    obtain ⟨bad'', hno⟩ := hno
    exact ⟨_, by simpa using Statement.ifElse hi ho hd hc hyes (fun _ => hclosed) hk hno⟩

end

/-! ## Declarations -/

section

variable {n : Nat} (statements : ∀ ts : List Token, ts.length ≤ n →
  Settled statement DerivedStatement LeavesElse ts)

include statements

theorem settled_declaration (ts : List Token) (hn : ts.length ≤ n) :
    Settled (declaration statement) DerivedDeclaration LeavesElse ts := by
  have hstatement (h : ∀ us : List Token, us.head? = ts.head? →
      declaration statement us = statement us) :
      Settled (declaration statement) DerivedDeclaration LeavesElse ts :=
    (statements ts hn).mono h (fun _ _ ⟨bad, hs⟩ => ⟨bad, .statement hs⟩) fun _ _ h => h
  cases ts with
  | nil =>
    refine hstatement fun us hus => ?_
    obtain rfl : us = [] := List.head?_eq_none_iff.1 hus
    rfl
  | cons t ts =>
    by_cases hk : t.kind = .varKw
    · refine Settled.cons (settled_declarationTail hk ts) fun us => ?_
      simp only [declaration, hk, if_true]
    · refine hstatement fun us hus => ?_
      obtain ⟨vs, rfl⟩ := List.head?_eq_some_iff.1 hus
      simp only [declaration, hk, if_false]

/-- Declarations with a round for each token that is left, and one for each that is spare. -/
def declarationsWith (stop : Option Kind) (spare : List Token) : Parser (List Stmt) :=
  bounded fun ts => declarations stop statement (spare ++ ts)

omit statements in
theorem declarationsWith_apply {stop : Option Kind} {spare ts rounds : List Token} {t r : Token}
    (ht : ts.head? = some t) (hstop : stop ≠ some t.kind) (hr : spare ++ ts = r :: rounds) :
    declarationsWith stop spare ts = (recover (declaration statement) >>= fun first =>
      (fun others => first.toList ++ others) <$> declarations stop statement rounds) ts := by
  show declarations stop statement (spare ++ ts) ts = _
  obtain ⟨us, rfl⟩ := List.head?_eq_some_iff.1 ht
  rw [hr, declarations]
  simp only [if_neg hstop]
  rfl

omit statements in
theorem balks_declarationsWith {stop : Option Kind} {used rest : List Token} {t : Token}
    {what : Expectation} (hb : Balks (declaration statement) used rest.head? what)
    (ht : (used ++ rest).head? = some t) (hstop : stop ≠ some t.kind) (spare : List Token) :
    Balks (declarationsWith stop spare) used rest.head? what := by
  intro ws hws
  have hhead : (used ++ ws).head? = some t := (head?_append_congr used hws).trans ht
  obtain ⟨r, rounds, hr⟩ : ∃ r rounds, spare ++ (used ++ ws) = r :: rounds := by
    obtain ⟨us, hus⟩ := List.head?_eq_some_iff.1 hhead
    rw [hus]
    cases spare <;> simp
  rw [declarationsWith_apply hhead hstop hr]
  exact trips_bind (trips_recover (hb ws hws))

omit statements in
theorem Takes.balks_declarationsWith {stop : Option Kind} {spare spare' us vs after : List Token}
    {t r : Token} {s : Stmt} {what : Expectation}
    (htakes : Takes (declaration statement) (t :: us) (vs ++ after).head? s)
    (hstop : stop ≠ some t.kind) (hspare : spare ++ t :: us = r :: spare')
    (hb : Balks (declarationsWith stop spare') vs after.head? what) :
    Balks (declarationsWith stop spare) (t :: us ++ vs) after.head? what := by
  intro ws hws
  obtain ⟨noted, hy, hclean⟩ := htakes (vs ++ ws) (head?_append_congr vs hws)
  have hr : spare ++ (t :: us ++ (vs ++ ws)) = r :: (spare' ++ (vs ++ ws)) := by
    rw [← List.append_assoc, hspare, List.cons_append]
  rw [List.append_assoc, declarationsWith_apply rfl hstop hr]
  exact trips_after (yields_recover_some.2 hy) hclean (trips_bind (hb ws hws))

/-- The bound on the rounds is never what ends the loop. -/
theorem settled_declarations {stop : Option Kind} (spare ts : List Token) (hn : ts.length ≤ n) :
    Settled (declarationsWith stop spare) DerivedBody (StopsBefore stop) ts := by
  induction hm : ts.length using Nat.strongRecOn generalizing ts spare with
  | ind m ih
  by_cases hdone : ∀ t ∈ ts.head?, stop = some t.kind
  · exact .here [] ⟨[], .nil⟩ hdone
  · obtain ⟨t, ht, hstop⟩ : ∃ t, ts.head? = some t ∧ stop ≠ some t.kind := by
      simpa using hdone
    cases settled_declaration statements ts hn with
    | whole used rest s hd hends =>
      have htakes := accepts_declaration used _ s hd hends
      obtain ⟨bad, hd⟩ := hd
      obtain ⟨u, us, rfl, -⟩ := hd.head
      obtain rfl : u = t := by simpa using ht
      -- The declaration takes a token at least, so there are rounds enough for the rest.
      obtain ⟨r, spare', hspare⟩ : ∃ r spare', spare ++ u :: us = r :: spare' := by
        cases spare <;> simp
      simp only [List.length_append, List.length_cons] at hn hm
      have hrest := ih rest.length (by omega) spare' rest (by omega) rfl
      cases hrest with
      | whole vs after body hbody hends' =>
        obtain ⟨bad', hbody⟩ := hbody
        rw [← List.append_assoc]
        exact .whole (u :: us ++ vs) after (s :: body) ⟨_, .cons hd hbody⟩ hends'
      | balked vs after more what body hb hbody =>
        obtain ⟨bad', hbody⟩ := hbody
        rw [← List.append_assoc]
        exact .balked (u :: us ++ vs) after more what (s :: body)
          (htakes.balks_declarationsWith hstop hspare hb)
          ⟨_, by simpa using Declarations.cons hd hbody⟩
    | balked used rest more what s hb hmore =>
      obtain ⟨bad, hd⟩ := hmore
      exact .balked used rest more what [s] (balks_declarationsWith hb ht hstop spare)
        ⟨_, by simpa using Declarations.cons hd .nil⟩

end

theorem settled_blockTail {n : Nat} (inner : ∀ ts : List Token, ts.length < n →
    Settled statement DerivedStatement LeavesElse ts) {o : Token} (ho : o.kind = .leftBrace)
    (ts : List Token) (hn : ts.length < n) :
    Settled (blockTail statement) (fun us s => DerivedStatement (o :: us) s) LeavesElse ts := by
  have hbody : Settled (bounded (declarations (some .rightBrace) statement)) DerivedBody
      (StopsBefore (some .rightBrace)) ts :=
    settled_declarations (fun us hus => inner us (Nat.lt_of_le_of_lt hus hn)) [] ts (Nat.le_refl _)
  exact hbody.closed (accepts_declarations (.inr rfl))
    (fun us body c ⟨bad, hd⟩ hc => ⟨bad, .block ho hd hc⟩) fun _ _ => nofun

theorem settled_statement (ts : List Token) :
    Settled statement DerivedStatement LeavesElse ts := by
  induction hn : ts.length using Nat.strongRecOn generalizing ts with
  | ind n ih
  have inner : ∀ us : List Token, us.length < n →
      Settled statement DerivedStatement LeavesElse us := fun us hus => ih us.length hus us rfl
  rw [statement_eq]
  cases ts with
  | nil =>
    refine (settled_expressionStatement []).mono (fun us hus => ?_) (fun _ _ h => h) fun _ _ h => h
    obtain rfl : us = [] := List.head?_eq_none_iff.1 hus
    rfl
  | cons t ts =>
    have hlen : ts.length < n := by simp [← hn]
    by_cases hif : t.kind = .ifKw
    · exact Settled.cons (settled_ifTail inner hif ts hlen) fun us => by
        simp only [statementAround, hif]
    by_cases hprint : t.kind = .printKw
    · exact Settled.cons (settled_printTail hprint ts) fun us => by
        simp only [statementAround, hprint]
    by_cases hwhile : t.kind = .whileKw
    · exact Settled.cons (settled_whileTail inner hwhile ts hlen) fun us => by
        simp only [statementAround, hwhile]
    by_cases hbrace : t.kind = .leftBrace
    · exact Settled.cons (settled_blockTail inner hbrace ts hlen) fun us => by
        simp only [statementAround, hbrace]
    refine (settled_expressionStatement (t :: ts)).mono (fun us hus => ?_) (fun _ _ h => h)
      fun _ _ h => h
    obtain ⟨vs, rfl⟩ := List.head?_eq_some_iff.1 hus
    unfold statementAround
    dsimp only
    split <;> first | contradiction | rfl

theorem settled_program (ts : List Token) :
    Settled program DerivedBody (StopsBefore none) ts :=
  settled_declarations (fun us _ => settled_statement us) [] ts (Nat.le_refl _)

end Parser

end Treewalk
