import Treewalk.Proofs.Syntax.Expressions

/-!
# Programs are parsed by the grammar

A program that the grammar derives is parsed as its tree, with no error but the bad targets. On
any other, something was expected that was not there. So a program has no error exactly when the
strict grammar derives it.
-/

namespace Treewalk.Parser

open Token (Kind)
open Grammar (Derives Statement Declaration Declarations takesElse relaxed)

/-! ## When the pieces succeed -/

theorem yields_ifTail {p : Parser Stmt} {ts rest : List Token} {s : Stmt}
    {noted : List Complaint} :
    Yields (ifTail p) ts s rest noted ↔
      ∃ o us condition before c vs yes mid after, ts = o :: us ∧ o.kind = .leftParen ∧
        Yields expression us condition (c :: vs) before ∧ c.kind = .rightParen ∧
        Yields p vs yes mid after ∧
        (((∀ t ∈ mid.head?, t.kind ≠ .elseKw) ∧ s = .ifThen condition yes ∧ rest = mid ∧
            noted = before ++ after) ∨
          ∃ other ws no last, mid = other :: ws ∧ other.kind = .elseKw ∧
            Yields p ws no rest last ∧ s = .ifElse condition yes no ∧
            noted = before ++ after ++ last) := by
  unfold ifTail
  constructor
  · intro h
    obtain ⟨o, us, rfl, ho, h1⟩ := yields_expect_bind.1 h
    obtain ⟨condition, _, before, _, he, h2, rfl⟩ := yields_bind.1 h1
    obtain ⟨c, vs, rfl, hc, h3⟩ := yields_expect_bind.1 h2
    obtain ⟨yes, mid, after, _, hyes, h4, rfl⟩ := yields_bind.1 h3
    refine ⟨o, us, condition, before, c, vs, yes, mid, after, rfl, ho, he, hc, hyes, ?_⟩
    rcases yields_accept_bind.1 h4 with ⟨hno, h5⟩ | ⟨other, ws, rfl, hk, h5⟩
    · obtain ⟨rfl, rfl, rfl⟩ := yields_pure.1 h5
      exact .inl ⟨hno, rfl, rfl, by simp⟩
    · obtain ⟨no, hno, rfl⟩ := yields_map.1 h5
      exact .inr ⟨other, ws, no, _, rfl, hk, hno, rfl, by simp⟩
  · rintro ⟨o, us, condition, before, c, vs, yes, mid, after, rfl, ho, he, hc, hyes, h⟩
    refine yields_expect_bind.2 ⟨o, us, rfl, ho, ?_⟩
    rcases h with ⟨hno, rfl, rfl, rfl⟩ | ⟨other, ws, no, last, rfl, hk, hno, rfl, rfl⟩
    · refine yields_bind.2 ⟨condition, _, before, after, he,
        yields_expect_bind.2 ⟨c, vs, rfl, hc, ?_⟩, rfl⟩
      exact yields_bind.2 ⟨yes, rest, after, [], hyes,
        yields_accept_bind.2 (.inl ⟨hno, yields_pure.2 ⟨rfl, rfl, rfl⟩⟩), by simp⟩
    · refine yields_bind.2 ⟨condition, _, before, after ++ last, he,
        yields_expect_bind.2 ⟨c, vs, rfl, hc, ?_⟩, by simp⟩
      exact yields_bind.2 ⟨yes, _, after, last, hyes,
        yields_accept_bind.2 (.inr ⟨other, ws, rfl, hk, yields_map.2 ⟨no, hno, rfl⟩⟩), rfl⟩

theorem yields_whileTail {p : Parser Stmt} {ts rest : List Token} {s : Stmt}
    {noted : List Complaint} :
    Yields (whileTail p) ts s rest noted ↔
      ∃ o us condition before c vs body after, ts = o :: us ∧ o.kind = .leftParen ∧
        Yields expression us condition (c :: vs) before ∧ c.kind = .rightParen ∧
        Yields p vs body rest after ∧ s = .loop condition body ∧ noted = before ++ after := by
  unfold whileTail
  constructor
  · intro h
    obtain ⟨o, us, rfl, ho, h1⟩ := yields_expect_bind.1 h
    obtain ⟨condition, _, before, _, he, h2, rfl⟩ := yields_bind.1 h1
    obtain ⟨c, vs, rfl, hc, h3⟩ := yields_expect_bind.1 h2
    obtain ⟨body, hbody, rfl⟩ := yields_map.1 h3
    exact ⟨o, us, condition, before, c, vs, body, _, rfl, ho, he, hc, hbody, rfl, rfl⟩
  · rintro ⟨o, us, condition, before, c, vs, body, after, rfl, ho, he, hc, hbody, rfl, rfl⟩
    refine yields_expect_bind.2 ⟨o, us, rfl, ho, yields_bind.2 ⟨condition, _, before, after, he, ?_, rfl⟩⟩
    exact yields_expect_bind.2 ⟨c, vs, rfl, hc, yields_map.2 ⟨body, hbody, rfl⟩⟩

theorem yields_semicolon {what : Expectation} {build : Expr → Stmt} {ts rest : List Token}
    {s : Stmt} {noted : List Complaint} :
    Yields (expression >>= fun e => expect .semicolon what >>= fun _ => pure (build e)) ts s rest
        noted ↔
      ∃ e semi, Yields expression ts e (semi :: rest) noted ∧ semi.kind = .semicolon ∧
        s = build e := by
  rw [yields_bind]
  constructor
  · rintro ⟨e, _, before, _, he, htail, rfl⟩
    obtain ⟨semi, _, rfl, hs, hend⟩ := yields_expect_bind.1 htail
    obtain ⟨rfl, rfl, rfl⟩ := yields_pure.1 hend
    exact ⟨e, semi, by simpa using he, hs, rfl⟩
  · rintro ⟨e, semi, he, hs, rfl⟩
    exact ⟨e, _, noted, [], he,
      yields_expect_bind.2 ⟨semi, rest, rfl, hs, yields_pure.2 ⟨rfl, rfl, rfl⟩⟩, by simp⟩

theorem yields_declarationTail {ts rest : List Token} {s : Stmt} {noted : List Complaint} :
    Yields declarationTail ts s rest noted ↔
      ∃ name us, ts = name :: us ∧ name.kind = .identifier ∧
        ((∃ semi, us = semi :: rest ∧ semi.kind = .semicolon ∧ s = .declare name none ∧
            noted = []) ∨
          ∃ equals vs e semi, us = equals :: vs ∧ equals.kind = .equal ∧
            Yields expression vs e (semi :: rest) noted ∧ semi.kind = .semicolon ∧
            s = .declare name (some e)) := by
  unfold declarationTail
  constructor
  · intro h
    obtain ⟨name, us, rfl, hname, h1⟩ := yields_expect_bind.1 h
    refine ⟨name, us, rfl, hname, ?_⟩
    rcases yields_accept_bind.1 h1 with ⟨-, h2⟩ | ⟨equals, vs, rfl, hk, h2⟩
    · obtain ⟨_, _, _, _, hnone, h3, rfl⟩ := yields_bind.1 h2
      obtain ⟨rfl, rfl, rfl⟩ := yields_pure.1 hnone
      obtain ⟨semi, _, rfl, hs, h4⟩ := yields_expect_bind.1 h3
      obtain ⟨rfl, rfl, rfl⟩ := yields_pure.1 h4
      exact .inl ⟨semi, rfl, hs, rfl, rfl⟩
    · obtain ⟨_, _, before, _, hsome, h3, rfl⟩ := yields_bind.1 h2
      obtain ⟨e, he, rfl⟩ := yields_map.1 hsome
      obtain ⟨semi, _, rfl, hs, h4⟩ := yields_expect_bind.1 h3
      obtain ⟨rfl, rfl, rfl⟩ := yields_pure.1 h4
      exact .inr ⟨equals, vs, e, semi, rfl, hk, by simpa using he, hs, rfl⟩
  · rintro ⟨name, us, rfl, hname, h⟩
    refine yields_expect_bind.2 ⟨name, us, rfl, hname, yields_accept_bind.2 ?_⟩
    have hend {semi : Token} (hs : semi.kind = .semicolon) (init : Option Expr) :
        Yields (expect .semicolon .semicolonAfterDeclaration >>= fun _ =>
          pure (Stmt.declare name init)) (semi :: rest) (.declare name init) rest [] :=
      yields_expect_bind.2 ⟨semi, rest, rfl, hs, yields_pure.2 ⟨rfl, rfl, rfl⟩⟩
    rcases h with ⟨semi, rfl, hs, rfl, rfl⟩ | ⟨equals, vs, e, semi, rfl, hk, he, hs, rfl⟩
    · refine .inl ⟨by simp [hs], ?_⟩
      exact yields_bind.2 ⟨none, _, [], [], yields_pure.2 ⟨rfl, rfl, rfl⟩, hend hs none, rfl⟩
    · refine .inr ⟨equals, vs, rfl, hk, ?_⟩
      exact yields_bind.2 ⟨some e, _, noted, [], yields_map.2 ⟨e, he, rfl⟩, hend hs (some e),
        by simp⟩

theorem yields_declaration {p : Parser Stmt} {t : Token} {ts rest : List Token} {s : Stmt}
    {noted : List Complaint} :
    Yields (declaration p) (t :: ts) s rest noted ↔
      (t.kind = .varKw ∧ Yields declarationTail ts s rest noted) ∨
      (t.kind ≠ .varKw ∧ Yields p (t :: ts) s rest noted) := by
  show declaration p (t :: ts) = _ ↔ _
  unfold declaration Yields
  dsimp only
  by_cases h : t.kind = .varKw <;> simp [h]

theorem yields_declarations {stop : Option Kind} {p : Parser Stmt} {r : Token}
    {rounds ts rest : List Token} {body : List Stmt} {noted : List Complaint} :
    Yields (declarations stop p (r :: rounds)) ts body rest noted ↔
      ((∀ t ∈ ts.head?, stop = some t.kind) ∧ body = [] ∧ rest = ts ∧ noted = []) ∨
      ∃ t us first mid before others after, ts = t :: us ∧ stop ≠ some t.kind ∧
        Yields (recover (declaration p)) ts first mid before ∧
        Yields (declarations stop p rounds) mid others rest after ∧
        body = first.toList ++ others ∧ noted = before ++ after := by
  show declarations stop p (r :: rounds) ts = _ ↔ _
  rw [declarations]
  cases ts with
  | nil => simp only [Outcome.mk.injEq, Except.ok.injEq]; grind
  | cons t us =>
    dsimp only
    by_cases hstop : stop = some t.kind
    · simp only [if_pos hstop, Outcome.mk.injEq, Except.ok.injEq]; grind
    · rw [if_neg hstop]
      show Yields (recover (declaration p) >>= _) (t :: us) body rest noted ↔ _
      rw [yields_bind]
      constructor
      · rintro ⟨first, mid, before, _, hfirst, htail, rfl⟩
        obtain ⟨others, hothers, rfl⟩ := yields_map.1 htail
        exact .inr ⟨t, us, first, mid, before, others, _, rfl, hstop, hfirst, hothers, rfl, rfl⟩
      · rintro (⟨hno, -⟩ | ⟨_, _, first, mid, before, others, after, -, -, hfirst, hothers, rfl, rfl⟩)
        · exact absurd (hno t (by simp)) hstop
        · exact ⟨first, mid, before, after, hfirst, yields_map.2 ⟨others, hothers, rfl⟩, rfl⟩

theorem yields_blockTail {p : Parser Stmt} {ts rest : List Token} {s : Stmt}
    {noted : List Complaint} :
    Yields (blockTail p) ts s rest noted ↔
      ∃ body c, Yields (declarations (some .rightBrace) p ts) ts body (c :: rest) noted ∧
        c.kind = .rightBrace ∧ s = .block body := by
  unfold blockTail
  rw [yields_bind]
  constructor
  · rintro ⟨body, _, before, _, hbody, htail, rfl⟩
    obtain ⟨c, _, rfl, hc, hend⟩ := yields_expect_bind.1 htail
    obtain ⟨rfl, rfl, rfl⟩ := yields_pure.1 hend
    exact ⟨body, c, by rw [List.append_nil]; exact hbody, hc, rfl⟩
  · rintro ⟨body, c, hbody, hc, rfl⟩
    exact ⟨body, c :: rest, noted, [], hbody,
      yields_expect_bind.2 ⟨c, rest, rfl, hc, yields_pure.2 ⟨rfl, rfl, rfl⟩⟩, by simp⟩

theorem yields_statementAround {p : Parser Stmt} {t : Token} {ts rest : List Token} {s : Stmt}
    {noted : List Complaint} :
    Yields (statementAround p) (t :: ts) s rest noted ↔
      (t.kind = .ifKw ∧ Yields (ifTail p) ts s rest noted) ∨
      (t.kind = .printKw ∧ Yields (printTail t) ts s rest noted) ∨
      (t.kind = .whileKw ∧ Yields (whileTail p) ts s rest noted) ∨
      (t.kind = .leftBrace ∧ Yields (blockTail p) ts s rest noted) ∨
      (t.kind ∉ [.ifKw, .printKw, .whileKw, .leftBrace] ∧
        Yields expressionStatement (t :: ts) s rest noted) := by
  show statementAround p (t :: ts) = _ ↔ _
  unfold statementAround Yields
  dsimp only
  split <;> simp_all

/-! ## What is parsed is derived -/

/-- No complaint about something that was expected. -/
def Clean (noted : List Complaint) : Prop := ∀ c ∈ noted, ∀ what, c.cause ≠ .expected what

theorem clean_append {before after : List Complaint} :
    Clean (before ++ after) ↔ Clean before ∧ Clean after := by
  simp only [Clean, List.mem_append]
  grind

/-- With the `else` that would be taken: none stands after a statement that takes one. -/
def SoundStatement (p : Parser Stmt) : Prop :=
  ∀ ts s rest noted, Yields p ts s rest noted → Clean noted →
    (∃ used bad, ts = used ++ rest ∧ Statement relaxed used s bad ∧
      noted.Perm (bad.map badTarget)) ∧
    (takesElse s = true → ∀ t ∈ rest.head?, t.kind ≠ .elseKw)

theorem sound_declaration {p : Parser Stmt} (hp : SoundStatement p) {ts rest : List Token}
    {s : Stmt} {noted : List Complaint} (h : Yields (declaration p) ts s rest noted)
    (hclean : Clean noted) :
    ∃ used bad, ts = used ++ rest ∧ Declaration relaxed used s bad ∧
      noted.Perm (bad.map badTarget) := by
  cases ts with
  | nil =>
    obtain ⟨used, bad, hts, hd, hperm⟩ := (hp _ _ _ _ h hclean).1
    exact ⟨used, bad, hts, .statement hd, hperm⟩
  | cons t ts =>
    rcases yields_declaration.1 h with ⟨hk, hv⟩ | ⟨-, hs⟩
    · obtain ⟨name, us, rfl, hname, htail⟩ := yields_declarationTail.1 hv
      rcases htail with ⟨semi, rfl, hsemi, rfl, rfl⟩ | ⟨equals, vs, e, semi, rfl, heq, he, hsemi, rfl⟩
      · exact ⟨[t, name, semi], [], rfl, .var hk hname hsemi, .refl _⟩
      · obtain ⟨used, bad, rfl, hd, hperm⟩ := expression_sound _ _ _ _ he
        exact ⟨t :: name :: equals :: used ++ [semi], bad, by simp, .init hk hname heq hd hsemi, hperm⟩
    · obtain ⟨used, bad, hts, hd, hperm⟩ := (hp _ _ _ _ hs hclean).1
      exact ⟨used, bad, hts, .statement hd, hperm⟩

/-- The rounds last to the end: every declaration takes a token. -/
theorem sound_declarations {p : Parser Stmt} (hp : SoundStatement p) {stop : Option Kind} :
    ∀ (rounds ts : List Token) (body : List Stmt) (rest : List Token) (noted : List Complaint),
      ts.length ≤ rounds.length → Yields (declarations stop p rounds) ts body rest noted →
      Clean noted →
      (∃ used bad, ts = used ++ rest ∧ Declarations relaxed used body bad ∧
        noted.Perm (bad.map badTarget)) ∧ ∀ t ∈ rest.head?, stop = some t.kind
  | [], ts, body, rest, noted, hlen, h, _ => by
    obtain ⟨rfl, rfl, rfl⟩ := yields_pure.1 h
    obtain rfl : rest = [] := List.eq_nil_of_length_eq_zero (Nat.le_zero.1 hlen)
    exact ⟨⟨[], [], rfl, .nil, .refl _⟩, by simp⟩
  | _ :: rounds, ts, body, rest, noted, hlen, h, hclean => by
    rcases yields_declarations.1 h with ⟨hno, rfl, rfl, rfl⟩ |
      ⟨t, us, first, mid, before, others, after, rfl, -, hfirst, hothers, rfl, rfl⟩
    · exact ⟨⟨[], [], rfl, .nil, .refl _⟩, hno⟩
    · obtain ⟨hbefore, hafter⟩ := clean_append.1 hclean
      cases first with
      | none =>
        obtain ⟨c, hc, what, hw⟩ := expected_of_yields_recover_none hfirst
        exact absurd hw (hbefore c hc what)
      | some s =>
        obtain ⟨used, bad, hts, hd, hperm⟩ :=
          sound_declaration hp (yields_recover_some.1 hfirst) hbefore
        have hmid : mid.length ≤ rounds.length := by
          obtain ⟨u, vs, rfl, -⟩ := hd.head
          have := congrArg List.length hts
          simp at this hlen
          omega
        obtain ⟨⟨used', bad', rfl, hd', hperm'⟩, hrest⟩ :=
          sound_declarations hp rounds mid others rest after hmid hothers hafter
        refine ⟨⟨used ++ used', bad ++ bad', by simp [hts], .cons hd hd', ?_⟩, hrest⟩
        rw [List.map_append]
        exact hperm.append hperm'

theorem sound_ifTail {p : Parser Stmt} (hp : SoundStatement p) {i : Token} (hi : i.kind = .ifKw)
    {ts rest : List Token} {s : Stmt} {noted : List Complaint}
    (h : Yields (ifTail p) ts s rest noted) (hclean : Clean noted) :
    (∃ used bad, i :: ts = used ++ rest ∧ Statement relaxed used s bad ∧
      noted.Perm (bad.map badTarget)) ∧
    (takesElse s = true → ∀ t ∈ rest.head?, t.kind ≠ .elseKw) := by
  obtain ⟨o, us, condition, before, c, vs, yes, mid, after, rfl, ho, he, hc, hyes, hcase⟩ :=
    yields_ifTail.1 h
  obtain ⟨used, bad, rfl, hd, hperm⟩ := expression_sound _ _ _ _ he
  rcases hcase with ⟨hno, rfl, rfl, rfl⟩ | ⟨other, ws, no, last, rfl, hk, hnoStmt, rfl, rfl⟩
  · obtain ⟨⟨used', bad', rfl, hd', hperm'⟩, -⟩ := hp _ _ _ _ hyes (clean_append.1 hclean).2
    refine ⟨⟨i :: o :: used ++ c :: used', bad ++ bad', by simp, .ifThen hi ho hd hc hd', ?_⟩,
      fun _ => hno⟩
    rw [List.map_append]
    exact hperm.append hperm'
  · obtain ⟨hclean, hlast⟩ := clean_append.1 hclean
    obtain ⟨⟨used', bad', rfl, hd', hperm'⟩, htakes⟩ := hp _ _ _ _ hyes (clean_append.1 hclean).2
    obtain ⟨⟨used'', bad'', rfl, hd'', hperm''⟩, htakes'⟩ := hp _ _ _ _ hnoStmt hlast
    have hclosed : takesElse yes = false := by
      cases hy : takesElse yes with
      | false => rfl
      | true => exact absurd hk (htakes hy other (by simp))
    refine ⟨⟨i :: o :: used ++ c :: used' ++ other :: used'', bad ++ bad' ++ bad'', by simp,
      .ifElse hi ho hd hc hd' (fun _ => hclosed) hk hd'', ?_⟩, fun h => htakes' h⟩
    rw [List.map_append, List.map_append]
    exact (hperm.append hperm').append hperm''

theorem sound_statementAround {p : Parser Stmt} (hp : SoundStatement p) :
    SoundStatement (statementAround p) := by
  intro ts s rest noted h hclean
  have hexpr {us : List Token} (h : Yields expressionStatement us s rest noted) :
      (∃ used bad, us = used ++ rest ∧ Statement relaxed used s bad ∧
        noted.Perm (bad.map badTarget)) ∧
      (takesElse s = true → ∀ t ∈ rest.head?, t.kind ≠ .elseKw) := by
    obtain ⟨e, semi, he, hs, rfl⟩ := yields_semicolon.1 h
    obtain ⟨used, bad, rfl, hd, hperm⟩ := expression_sound _ _ _ _ he
    exact ⟨⟨used ++ [semi], bad, by simp, .expression hd hs, hperm⟩, nofun⟩
  cases ts with
  | nil => exact hexpr h
  | cons t ts =>
    rcases yields_statementAround.1 h with
      ⟨hk, hif⟩ | ⟨hk, hprint⟩ | ⟨hk, hwhile⟩ | ⟨hk, hblock⟩ | ⟨-, hexp⟩
    · exact sound_ifTail hp hk hif hclean
    · obtain ⟨e, semi, he, hs, rfl⟩ := yields_semicolon.1 hprint
      obtain ⟨used, bad, rfl, hd, hperm⟩ := expression_sound _ _ _ _ he
      exact ⟨⟨t :: used ++ [semi], bad, by simp, .print hk hd hs, hperm⟩, nofun⟩
    · obtain ⟨o, us, condition, before, c, vs, body, after, rfl, ho, he, hc, hbody, rfl, rfl⟩ :=
        yields_whileTail.1 hwhile
      obtain ⟨used, bad, rfl, hd, hperm⟩ := expression_sound _ _ _ _ he
      obtain ⟨⟨used', bad', rfl, hd', hperm'⟩, htakes⟩ :=
        hp _ _ _ _ hbody (clean_append.1 hclean).2
      refine ⟨⟨t :: o :: used ++ c :: used', bad ++ bad', by simp, .loop hk ho hd hc hd', ?_⟩,
        fun h => htakes h⟩
      rw [List.map_append]
      exact hperm.append hperm'
    · obtain ⟨body, c, hbody, hc, rfl⟩ := yields_blockTail.1 hblock
      obtain ⟨⟨used, bad, hts, hd, hperm⟩, -⟩ :=
        sound_declarations hp ts ts body (c :: rest) noted (Nat.le_refl _) hbody hclean
      exact ⟨⟨t :: used ++ [c], bad, by simp [hts], .block hk hd hc, hperm⟩, nofun⟩
    · exact hexpr hexp

theorem statement_sound : SoundStatement statement := by
  have h : ∀ rounds, SoundStatement (levels statementAround rounds) := by
    intro rounds
    induction rounds with
    | nil => exact sound_statementAround fun _ _ _ _ h => absurd h not_yields_fail
    | cons _ rounds ih => exact sound_statementAround ih
  exact fun ts => h ts ts

/-! ## What is derived is parsed -/

theorem head_ne_else {rules : Grammar.Rules} {ts bad rest : List Token} {body : List Stmt}
    (h : Declarations rules ts body bad) (hrest : ∀ t ∈ rest.head?, t.kind ≠ .elseKw) :
    ∀ t ∈ (ts ++ rest).head?, t.kind ≠ .elseKw := by
  cases h with
  | nil => exact hrest
  | cons hd =>
    obtain ⟨t, us, rfl, ht, -⟩ := hd.head
    simpa using ht

mutual

theorem statement_complete {rules : Grammar.Rules} (hif : rules.anyIf = false)
    {ts bad : List Token} {s : Stmt} (h : Statement rules ts s bad) {rest : List Token}
    (hrest : takesElse s = true → ∀ t ∈ rest.head?, t.kind ≠ .elseKw) :
    ∃ noted, Yields statement (ts ++ rest) s rest noted ∧ noted.Perm (bad.map badTarget) := by
  rw [statement_eq]
  cases h with
  | @ifThen i o c ts us condition yes bad bad' hi ho hd hc hyes =>
    obtain ⟨before, he, hperm⟩ :=
      expression_complete hd (Grammar.ends_assignment (.inl hc) (us ++ rest))
    obtain ⟨after, hs, hperm'⟩ := statement_complete hif hyes (fun _ => hrest rfl)
    refine ⟨before ++ after, ?_, by rw [List.map_append]; exact hperm.append hperm'⟩
    rw [show i :: o :: ts ++ c :: us ++ rest = i :: o :: (ts ++ c :: (us ++ rest)) by simp]
    exact yields_statementAround.2 (.inl ⟨hi, yields_ifTail.2 ⟨o, _, condition, before, c, us ++ rest,
      yes, rest, after, rfl, ho, he, hc, hs, .inl ⟨hrest rfl, rfl, rfl, rfl⟩⟩⟩)
  | @ifElse i o c other ts us vs condition yes no bad bad' bad'' hi ho hd hc hyes hclosed hk hno =>
    obtain ⟨before, he, hperm⟩ :=
      expression_complete hd (Grammar.ends_assignment (.inl hc) (us ++ other :: (vs ++ rest)))
    have htaken : takesElse yes = true →
        ∀ t ∈ (other :: (vs ++ rest)).head?, t.kind ≠ .elseKw := by
      intro h
      simp [hclosed hif] at h
    obtain ⟨after, hs, hperm'⟩ := statement_complete hif hyes htaken
    obtain ⟨last, hs', hperm''⟩ := statement_complete hif hno (fun h => hrest h)
    refine ⟨before ++ after ++ last, ?_, by
      rw [List.map_append, List.map_append]
      exact (hperm.append hperm').append hperm''⟩
    rw [show i :: o :: ts ++ c :: us ++ other :: vs ++ rest =
      i :: o :: (ts ++ c :: (us ++ other :: (vs ++ rest))) by simp]
    exact yields_statementAround.2 (.inl ⟨hi, yields_ifTail.2 ⟨o, _, condition, before, c, _,
      yes, other :: (vs ++ rest), after, rfl, ho, he, hc, hs,
      .inr ⟨other, vs ++ rest, no, last, rfl, hk, hs', rfl, rfl⟩⟩⟩)
  | @loop w o c ts us condition body bad bad' hw ho hd hc hbody =>
    obtain ⟨before, he, hperm⟩ :=
      expression_complete hd (Grammar.ends_assignment (.inl hc) (us ++ rest))
    obtain ⟨after, hs, hperm'⟩ := statement_complete hif hbody (fun h => hrest h)
    refine ⟨before ++ after, ?_, by rw [List.map_append]; exact hperm.append hperm'⟩
    rw [show w :: o :: ts ++ c :: us ++ rest = w :: o :: (ts ++ c :: (us ++ rest)) by simp]
    exact yields_statementAround.2 (.inr (.inr (.inl ⟨hw, yields_whileTail.2 ⟨o, _, condition, before,
      c, us ++ rest, body, after, rfl, ho, he, hc, hs, rfl, rfl⟩⟩)))
  | @block o c ts body bad ho hbody hc =>
    have hstop : ∀ t ∈ (c :: rest).head?, some Kind.rightBrace = some t.kind := by simp [hc]
    obtain ⟨noted, hs, hperm⟩ :=
      declarations_complete hif hbody (.inr rfl) hstop (ts ++ c :: rest) (by simp)
    refine ⟨noted, ?_, hperm⟩
    rw [show o :: ts ++ [c] ++ rest = o :: (ts ++ c :: rest) by simp]
    exact yields_statementAround.2 (.inr (.inr (.inr (.inl ⟨ho,
      yields_blockTail.2 ⟨body, c, hs, hc, rfl⟩⟩))))
  | @print keyword semi ts e bad hk hd hs =>
    obtain ⟨noted, he, hperm⟩ := expression_complete hd (Grammar.ends_assignment (.inr hs) rest)
    refine ⟨noted, ?_, hperm⟩
    rw [show keyword :: ts ++ [semi] ++ rest = keyword :: (ts ++ semi :: rest) by simp]
    exact yields_statementAround.2 (.inr (.inl ⟨hk, yields_semicolon.2 ⟨e, semi, he, hs, rfl⟩⟩))
  | @expression semi ts e bad hd hs =>
    obtain ⟨noted, he, hperm⟩ := expression_complete hd (Grammar.ends_assignment (.inr hs) rest)
    obtain ⟨t, us, rfl, ht⟩ := hd.head trivial
    refine ⟨noted, ?_, hperm⟩
    rw [show t :: us ++ [semi] ++ rest = t :: (us ++ semi :: rest) by simp]
    refine yields_statementAround.2 (.inr (.inr (.inr (.inr ⟨?_,
      yields_semicolon.2 ⟨e, semi, he, hs, rfl⟩⟩))))
    intro hmem
    simp only [List.mem_cons, List.not_mem_nil, or_false] at hmem
    rcases hmem with h | h | h | h <;> simp [h, Grammar.opens] at ht
termination_by 3 * ts.length

theorem declaration_complete {rules : Grammar.Rules} (hif : rules.anyIf = false)
    {ts bad : List Token} {s : Stmt} (h : Declaration rules ts s bad) {rest : List Token}
    (hrest : takesElse s = true → ∀ t ∈ rest.head?, t.kind ≠ .elseKw) :
    ∃ noted, Yields (declaration statement) (ts ++ rest) s rest noted ∧
      noted.Perm (bad.map badTarget) := by
  cases h with
  | @var v name semi hv hname hs =>
    exact ⟨[], yields_declaration.2 (.inl ⟨hv, yields_declarationTail.2 ⟨name, _, rfl, hname,
      .inl ⟨semi, rfl, hs, rfl, rfl⟩⟩⟩), .refl _⟩
  | @init v name equals semi ts e bad hv hname hk hd hs =>
    obtain ⟨noted, he, hperm⟩ := expression_complete hd (Grammar.ends_assignment (.inr hs) rest)
    refine ⟨noted, ?_, hperm⟩
    rw [show v :: name :: equals :: ts ++ [semi] ++ rest =
      v :: name :: equals :: (ts ++ semi :: rest) by simp]
    exact yields_declaration.2 (.inl ⟨hv, yields_declarationTail.2 ⟨name, _, rfl, hname,
      .inr ⟨equals, _, e, semi, rfl, hk, he, hs, rfl⟩⟩⟩)
  | statement hs =>
    obtain ⟨noted, h, hperm⟩ := statement_complete hif hs hrest
    obtain ⟨t, us, rfl, -, -, hvar⟩ := hs.head
    exact ⟨noted, yields_declaration.2 (.inr ⟨hvar, h⟩), hperm⟩
termination_by 3 * ts.length + 1

theorem declarations_complete {rules : Grammar.Rules} (hif : rules.anyIf = false)
    {ts bad : List Token} {body : List Stmt} (h : Declarations rules ts body bad)
    {stop : Option Kind} (hstop : stop = none ∨ stop = some .rightBrace) {rest : List Token}
    (hrest : ∀ t ∈ rest.head?, stop = some t.kind) (rounds : List Token)
    (hrounds : ts.length ≤ rounds.length) :
    ∃ noted, Yields (declarations stop statement rounds) (ts ++ rest) body rest noted ∧
      noted.Perm (bad.map badTarget) := by
  cases h with
  | nil =>
    refine ⟨[], ?_, .refl _⟩
    cases rounds with
    | nil => rfl
    | cons r rounds => exact yields_declarations.2 (.inl ⟨hrest, rfl, rfl, rfl⟩)
  | @cons ts us s body bad bad' hd hbody =>
    obtain ⟨t, vs, rfl, -, hbrace⟩ := hd.head
    have helse : ∀ t ∈ rest.head?, t.kind ≠ .elseKw := by
      intro t ht hk
      have hkind := hrest t ht
      rw [hk] at hkind
      rcases hstop with rfl | rfl <;> cases hkind
    obtain ⟨before, hfirst, hperm⟩ :=
      declaration_complete hif hd (fun _ => head_ne_else hbody helse)
    cases rounds with
    | nil => simp at hrounds
    | cons r rounds =>
      obtain ⟨after, hothers, hperm'⟩ :=
        declarations_complete hif hbody hstop hrest rounds (by simp at hrounds; omega)
      refine ⟨before ++ after, ?_, by rw [List.map_append]; exact hperm.append hperm'⟩
      rw [List.append_assoc]
      refine yields_declarations.2 (.inr ⟨t, vs ++ (us ++ rest), some s, us ++ rest, before, body,
        after, rfl, ?_, yields_recover_some.2 hfirst, hothers, rfl, rfl⟩)
      rcases hstop with rfl | rfl
      · simp
      · simpa using Ne.symm hbrace
termination_by 3 * ts.length + 2

end

/-! ## Whole programs -/

theorem declarations_ok (stop : Option Kind) (p : Parser Stmt) : ∀ rounds ts : List Token,
    ∃ body rest noted, Yields (declarations stop p rounds) ts body rest noted
  | [], ts => ⟨[], ts, [], rfl⟩
  | r :: rounds, ts => by
    by_cases hstop : ∀ t ∈ ts.head?, stop = some t.kind
    · exact ⟨[], ts, [], yields_declarations.2 (.inl ⟨hstop, rfl, rfl, rfl⟩)⟩
    · obtain ⟨first, mid, before, hfirst⟩ :
          ∃ first mid before, Yields (recover (declaration p)) ts first mid before := by
        unfold Yields recover
        rcases declaration p ts with ⟨_ | s, mid, before⟩
        · exact ⟨none, _, _, rfl⟩
        · exact ⟨some s, _, _, rfl⟩
      obtain ⟨others, rest, after, hothers⟩ := declarations_ok stop p rounds mid
      cases ts with
      | nil => simp at hstop
      | cons t us =>
        exact ⟨_, rest, _, yields_declarations.2 (.inr ⟨t, us, first, mid, before, others, after,
          rfl, by simpa using hstop, hfirst, hothers, rfl, rfl⟩)⟩

theorem program_sound {ts rest : List Token} {body : List Stmt} {noted : List Complaint}
    (h : Yields program ts body rest noted) (hclean : Clean noted) :
    ∃ bad, Declarations relaxed ts body bad ∧ noted.Perm (bad.map badTarget) := by
  obtain ⟨⟨used, bad, hts, hd, hperm⟩, hrest⟩ :=
    sound_declarations statement_sound ts ts body rest noted (Nat.le_refl _) h hclean
  -- The loop of a program has no stop kind, so it ends only where the tokens do.
  obtain rfl : rest = [] := by
    cases rest with
    | nil => rfl
    | cons t rest => exact absurd (hrest t rfl) nofun
  rw [List.append_nil] at hts
  exact ⟨bad, hts ▸ hd, hperm⟩

theorem program_complete {rules : Grammar.Rules} (hif : rules.anyIf = false)
    {ts bad : List Token} {body : List Stmt} (h : Declarations rules ts body bad) :
    ∃ noted, Yields program ts body [] noted ∧ noted.Perm (bad.map badTarget) := by
  have hrest : ∀ t ∈ ([] : List Token).head?, (none : Option Kind) = some t.kind := nofun
  obtain ⟨noted, hy, hperm⟩ := declarations_complete hif h (.inl rfl) hrest ts (Nat.le_refl _)
  rw [List.append_nil] at hy
  exact ⟨noted, hy, hperm⟩

end Treewalk.Parser

namespace Treewalk

open Grammar (Declarations relaxed strict)
open Treewalk.Parser (Yields)

theorem parse_eq {tokens rest : List Token} {body : List Stmt} {noted : List Complaint}
    (h : Yields Parser.program (beforeEnd tokens) body rest noted) :
    parse tokens = ⟨body, noted.map (·.toError (endToken tokens))⟩ := by
  unfold parse
  rw [show Parser.program (beforeEnd tokens) = _ from h]
  rfl

theorem parse_of_derives {rules : Grammar.Rules} (hif : rules.anyIf = false)
    {tokens bad : List Token} {body : List Stmt}
    (h : Declarations rules (beforeEnd tokens) body bad) :
    (parse tokens).statements = body ∧
      (parse tokens).errors.Perm (bad.map (.atToken .invalidAssignmentTarget)) := by
  obtain ⟨noted, hy, hperm⟩ := Parser.program_complete hif h
  rw [parse_eq hy]
  have herrors := hperm.map (·.toError (endToken tokens))
  rw [List.map_map] at herrors
  exact ⟨rfl, herrors⟩

theorem derives_of_parse {tokens : List Token}
    (h : ∀ e ∈ (parse tokens).errors, ∀ what, e.cause ≠ .expected what) :
    ∃ bad, Declarations relaxed (beforeEnd tokens) (parse tokens).statements bad ∧
      (parse tokens).errors.Perm (bad.map (.atToken .invalidAssignmentTarget)) := by
  obtain ⟨body, rest, noted, hy⟩ :=
    Parser.declarations_ok none Parser.statement (beforeEnd tokens) (beforeEnd tokens)
  have hparse := parse_eq hy
  have hclean : Parser.Clean noted := by
    intro c hc what hw
    refine h (c.toError (endToken tokens)) ?_ what hw
    rw [hparse]
    exact List.mem_map_of_mem hc
  obtain ⟨bad, hd, -⟩ := Parser.program_sound hy hclean
  rw [hparse]
  refine ⟨bad, hd, ?_⟩
  rw [← hparse]
  exact (parse_of_derives rfl hd).2

theorem parse_errors_eq_nil_iff {tokens : List Token} :
    (parse tokens).errors = [] ↔ ∃ body bad, Declarations strict (beforeEnd tokens) body bad := by
  constructor
  · intro h
    have hnone : ∀ e ∈ (parse tokens).errors, ∀ what, e.cause ≠ .expected what := by simp [h]
    obtain ⟨bad, hd, hperm⟩ := derives_of_parse hnone
    rw [h, List.nil_perm, List.map_eq_nil_iff] at hperm
    exact ⟨_, bad, hd.of_rules (.inl hperm) nofun⟩
  · rintro ⟨body, bad, hd⟩
    have hperm := (parse_of_derives rfl hd).2
    rw [hd.bad_eq_nil rfl] at hperm
    exact List.perm_nil.1 hperm

/-- What the relaxed grammar derives is parsed as its tree, with an error for each bad target. What
it does not derive has an error about something expected. -/
theorem parse_follows_grammar (tokens : List Token) :
    (∀ body bad, Declarations relaxed (beforeEnd tokens) body bad →
      (parse tokens).statements = body ∧
        (parse tokens).errors.Perm (bad.map (.atToken .invalidAssignmentTarget))) ∧
    ((¬ ∃ body bad, Declarations relaxed (beforeEnd tokens) body bad) →
      ∃ e ∈ (parse tokens).errors, ∃ what, e.cause = .expected what) ∧
    ((parse tokens).errors = [] ↔
      ∃ body bad, Declarations strict (beforeEnd tokens) body bad) ∧
    ∀ anyTarget, (∃ body bad, Declarations ⟨anyTarget, true⟩ (beforeEnd tokens) body bad) ↔
      ∃ body bad, Declarations ⟨anyTarget, false⟩ (beforeEnd tokens) body bad := by
  refine ⟨fun body bad h => parse_of_derives rfl h, ?_, parse_errors_eq_nil_iff, ?_⟩
  · intro hnone
    by_cases h : ∃ e ∈ (parse tokens).errors, ∃ what, e.cause = .expected what
    · exact h
    · obtain ⟨bad, hd, -⟩ := derives_of_parse fun e he what hw => h ⟨e, he, what, hw⟩
      exact absurd ⟨_, bad, hd⟩ hnone
  · intro anyTarget
    constructor
    · rintro ⟨body, bad, hd⟩
      obtain ⟨body', hd'⟩ := hd.nearest
      exact ⟨body', bad, hd'⟩
    · rintro ⟨body, bad, hd⟩
      refine ⟨body, bad, hd.of_rules ?_ nofun⟩
      cases anyTarget with
      | false => exact .inl (hd.bad_eq_nil rfl)
      | true => exact .inr rfl

end Treewalk
