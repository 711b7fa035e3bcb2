import Mathlib.Order.Bounds.Defs
import Treewalk.Proofs.Syntax.Termination

/-!
# Where parsing resumes

After a failure the parser skips to the first place where a statement may start: right after a
semicolon, at a keyword that starts one, or at the end. It skips the token at which it failed and
none from that place on, and the block or program around goes on from there.
-/

namespace Treewalk

open Token (Kind)

/-! ## Boundaries -/

/-- The position of the first end token. -/
def endIndex (tokens : List Token) : Nat := (closed tokens).findIdx Token.isEnd

/-- What a parser at position `p` has before it. -/
def standingAt (tokens : List Token) (p : Nat) : List Token :=
  ((closed tokens).take (endIndex tokens)).drop p

def kindAt (tokens : List Token) (p : Nat) : Option Kind := (closed tokens)[p]?.map (·.kind)

/-- The kinds of the keywords that start a statement or a declaration. -/
def openers : List Kind :=
  [.classKw, .funKw, .varKw, .forKw, .ifKw, .whileKw, .printKw, .returnKw]

/-- A statement may start at `q`. -/
def Boundary (tokens : List Token) (q : Nat) : Prop :=
  q = endIndex tokens ∨ kindAt tokens (q - 1) = some .semicolon ∨
    ∃ kind ∈ openers, kindAt tokens q = some kind

/-- The positions after `p`, up to the first end token, where a statement may start. -/
def boundariesAfter (tokens : List Token) (p : Nat) : Set Nat :=
  {q | p < q ∧ q ≤ endIndex tokens ∧ Boundary tokens q}

theorem Token.Kind.startsStatement_iff (kind : Kind) : kind.startsStatement ↔ kind ∈ openers := by
  cases kind <;> decide

variable (tokens : List Token)

theorem endIndex_eq : endIndex tokens = (beforeEnd tokens).length := by
  obtain ⟨more, hmore⟩ := exists_closed_eq tokens
  have hbefore : (beforeEnd tokens).findIdx Token.isEnd = (beforeEnd tokens).length :=
    List.findIdx_eq_length.2 fun t ht => by simpa using not_isEnd_of_mem_beforeEnd ht
  rw [endIndex, hmore, List.findIdx_append, hbefore, if_neg (Nat.lt_irrefl _),
    List.findIdx_cons, isEnd_endToken tokens]
  simp

theorem standingAt_eq (p : Nat) : standingAt tokens p = (beforeEnd tokens).drop p := by
  obtain ⟨more, hmore⟩ := exists_closed_eq tokens
  rw [standingAt, hmore, endIndex_eq, List.take_left]

variable {tokens}

theorem length_standingAt (p : Nat) : (standingAt tokens p).length = endIndex tokens - p := by
  rw [standingAt_eq, List.length_drop, endIndex_eq]

theorem standingAt_of_le {p : Nat} (h : endIndex tokens ≤ p) : standingAt tokens p = [] := by
  rw [← List.length_eq_zero_iff, length_standingAt, Nat.sub_eq_zero_of_le h]

theorem exists_standingAt_eq {p : Nat} (h : p < endIndex tokens) :
    ∃ t, standingAt tokens p = t :: standingAt tokens (p + 1) ∧ kindAt tokens p = some t.kind := by
  have hp : p < (beforeEnd tokens).length := endIndex_eq tokens ▸ h
  refine ⟨(beforeEnd tokens)[p], ?_, ?_⟩
  · rw [standingAt_eq, standingAt_eq, List.drop_eq_getElem_cons hp]
  · rw [kindAt, getElem?_closed tokens (Nat.le_of_lt hp), List.head?_drop,
      List.getElem?_eq_getElem hp]
    rfl

theorem boundary_succ_iff {p : Nat} {t u : Token} (h : p + 1 < endIndex tokens)
    (ht : kindAt tokens p = some t.kind) (hu : kindAt tokens (p + 1) = some u.kind) :
    Boundary tokens (p + 1) ↔ t.kind = .semicolon ∨ u.kind ∈ openers := by
  simp [Boundary, ht, hu, Nat.ne_of_lt h]

theorem succ_lt_of_not_boundary {p : Nat} (hp : p < endIndex tokens)
    (h : ¬ Boundary tokens (p + 1)) : p + 1 < endIndex tokens :=
  Nat.lt_of_le_of_ne hp fun hend => h (.inl hend)

theorem boundariesAfter_succ {p : Nat} (h : ¬ Boundary tokens (p + 1)) :
    boundariesAfter tokens p = boundariesAfter tokens (p + 1) := by
  ext q
  refine ⟨fun ⟨hlt, hle, hq⟩ => ⟨?_, hle, hq⟩, fun ⟨hlt, hle, hq⟩ => ⟨by omega, hle, hq⟩⟩
  refine Nat.lt_of_le_of_ne hlt ?_
  rintro rfl
  exact h hq

theorem isLeast_boundariesAfter {p : Nat} (hp : p < endIndex tokens)
    (h : Boundary tokens (p + 1)) : IsLeast (boundariesAfter tokens p) (p + 1) :=
  ⟨⟨Nat.lt_succ_self p, hp, h⟩, fun _ hq => hq.1⟩

/-! ## Skipping -/

namespace Parser

theorem synchronize_of_boundary {p : Nat} (hp : p < endIndex tokens)
    (h : Boundary tokens (p + 1)) :
    synchronize (standingAt tokens p) = standingAt tokens (p + 1) := by
  obtain ⟨t, hstand, ht⟩ := exists_standingAt_eq hp
  rw [hstand, synchronize]
  rcases Nat.lt_or_eq_of_le hp with hnext | hend
  · obtain ⟨u, hstand', hu⟩ := exists_standingAt_eq hnext
    rw [boundary_succ_iff hnext ht hu] at h
    refine if_pos ?_
    simpa [hstand', Token.Kind.startsStatement_iff] using h
  · rw [standingAt_of_le (Nat.le_of_eq hend.symm), synchronize, ite_self]

theorem synchronize_of_not_boundary {p : Nat} (hp : p < endIndex tokens)
    (h : ¬ Boundary tokens (p + 1)) :
    synchronize (standingAt tokens p) = synchronize (standingAt tokens (p + 1)) := by
  have hnext := succ_lt_of_not_boundary hp h
  obtain ⟨t, hstand, ht⟩ := exists_standingAt_eq hp
  obtain ⟨u, hstand', hu⟩ := exists_standingAt_eq hnext
  rw [boundary_succ_iff hnext ht hu] at h
  rw [hstand, synchronize]
  refine if_neg ?_
  simpa [hstand', Token.Kind.startsStatement_iff] using h

theorem exists_synchronize_eq {p : Nat} (hp : p < endIndex tokens) :
    ∃ q, IsLeast (boundariesAfter tokens p) q ∧
      synchronize (standingAt tokens p) = standingAt tokens q := by
  induction hleft : endIndex tokens - p generalizing p with
  | zero => omega
  | succ n ih =>
    by_cases h : Boundary tokens (p + 1)
    · exact ⟨p + 1, isLeast_boundariesAfter hp h, synchronize_of_boundary hp h⟩
    · obtain ⟨q, hleast, hskips⟩ := ih (succ_lt_of_not_boundary hp h) (by omega)
      rw [← boundariesAfter_succ h] at hleast
      exact ⟨q, hleast, (synchronize_of_not_boundary hp h).trans hskips⟩

theorem synchronize_endIndex :
    synchronize (standingAt tokens (endIndex tokens)) = standingAt tokens (endIndex tokens) := by
  rw [standingAt_of_le (Nat.le_refl _), synchronize]

end Parser

/-! ## Rounds -/

/-- A parser that failed at `p` resumes at `q`: at the first boundary after `p`, or where it is if
that is the end. -/
def Resumes (tokens : List Token) (p q : Nat) : Prop :=
  IsLeast (boundariesAfter tokens p) q ∨ p = endIndex tokens ∧ q = p

/-- `Rounds stop tokens i body noted j`: a loop over declarations goes from `i` to `j`. It stops at
the end or before a token of kind `stop`. A declaration is parsed, and the loop goes on behind it.
Or it fails, and the loop goes on where the parser resumes. -/
inductive Rounds (stop : Option Kind) (tokens : List Token) :
    Nat → List Stmt → List Complaint → Nat → Prop
  | done {i} : (i = endIndex tokens ∨ i < endIndex tokens ∧ stop = kindAt tokens i) →
    Rounds stop tokens i [] [] i
  | parsed {i k j s body noted later} : i < endIndex tokens → stop ≠ kindAt tokens i →
    Parser.declaration Parser.statement (standingAt tokens i) =
      ⟨.ok s, standingAt tokens k, noted⟩ →
    Rounds stop tokens k body later j → Rounds stop tokens i (s :: body) (noted ++ later) j
  | failed {i p q j what body noted later} : i < endIndex tokens → stop ≠ kindAt tokens i →
    Parser.declaration Parser.statement (standingAt tokens i) =
      ⟨.error what, standingAt tokens p, noted⟩ →
    Resumes tokens p q → Rounds stop tokens q body later j →
    Rounds stop tokens i body (noted ++ ⟨.expected what, (standingAt tokens p).head?⟩ :: later) j

theorem Rounds.ends {stop : Option Kind} {i j : Nat} {body : List Stmt} {noted : List Complaint}
    (h : Rounds stop tokens i body noted j) :
    j = endIndex tokens ∨ j < endIndex tokens ∧ stop = kindAt tokens j := by
  induction h with
  | done hends => exact hends
  | parsed _ _ _ _ ih => exact ih
  | failed _ _ _ _ _ ih => exact ih

namespace Resumes

variable {p q : Nat}

theorem le_endIndex (h : Resumes tokens p q) : q ≤ endIndex tokens := by
  obtain hleast | ⟨rfl, rfl⟩ := h
  · exact hleast.1.2.1
  · exact Nat.le_refl _

theorem lt {i : Nat} (h : Resumes tokens p q) (hi : i < endIndex tokens) (hip : i ≤ p) : i < q := by
  obtain hleast | ⟨rfl, rfl⟩ := h
  · exact Nat.lt_of_le_of_lt hip hleast.1.1
  · exact hi

end Resumes

namespace Parser

theorem exists_resumes {p : Nat} (hp : p ≤ endIndex tokens) :
    ∃ q, Resumes tokens p q ∧ synchronize (standingAt tokens p) = standingAt tokens q := by
  rcases Nat.lt_or_eq_of_le hp with hlt | rfl
  · obtain ⟨q, hleast, hskips⟩ := exists_synchronize_eq hlt
    exact ⟨q, .inl hleast, hskips⟩
  · exact ⟨_, .inr ⟨rfl, rfl⟩, synchronize_endIndex⟩

theorem exists_rest_declaration {i : Nat} (hi : i ≤ endIndex tokens) :
    ∃ k, i ≤ k ∧ k ≤ endIndex tokens ∧
      (declaration statement (standingAt tokens i)).rest = standingAt tokens k := by
  rw [endIndex_eq] at hi ⊢
  simp only [standingAt_eq]
  exact Routine.declaration.exists_position (beforeEnd tokens) i hi

variable {stop : Option Kind}

theorem yields_recover_none {α : Type} {p : Parser α} {ts rest : List Token} {what : Expectation}
    {noted : List Complaint} (h : p ts = ⟨.error what, rest, noted⟩) :
    Yields (recover p) ts none (synchronize rest) (noted ++ [⟨.expected what, rest.head?⟩]) := by
  unfold Yields recover
  rw [h]
  rfl

theorem yields_body_done {ts : List Token} (h : ∀ t ∈ ts.head?, stop = some t.kind) :
    Yields (bounded (declarations stop statement)) ts [] ts [] := by
  cases ts with
  | nil => rfl
  | cons t ts => exact yields_declarations.2 (.inl ⟨h, rfl, rfl, rfl⟩)

theorem yields_body_cons {t : Token} {ts mid rest : List Token} {first : Option Stmt}
    {others : List Stmt} {before after : List Complaint} (hstop : stop ≠ some t.kind)
    (hfirst : Yields (recover (declaration statement)) (t :: ts) first mid before)
    (hothers : Yields (bounded (declarations stop statement)) mid others rest after) :
    Yields (bounded (declarations stop statement)) (t :: ts) (first.toList ++ others) rest
      (before ++ after) := by
  unfold Yields
  rw [body_cons hstop]
  exact yields_bind.2 ⟨first, mid, before, after, hfirst, yields_map.2 ⟨others, hothers, rfl⟩, rfl⟩

theorem exists_rounds (stop : Option Kind) {i : Nat} (hi : i ≤ endIndex tokens) :
    ∃ body noted j, Yields (bounded (declarations stop statement)) (standingAt tokens i) body
      (standingAt tokens j) noted ∧ Rounds stop tokens i body noted j := by
  induction hleft : endIndex tokens - i using Nat.strong_induction_on generalizing i with
  | _ left ih =>
    rcases Nat.lt_or_eq_of_le hi with hlt | rfl
    · obtain ⟨t, hstand, ht⟩ := exists_standingAt_eq hlt
      by_cases hstop : stop = some t.kind
      · refine ⟨[], [], i, yields_body_done ?_, .done (.inr ⟨hlt, hstop.trans ht.symm⟩)⟩
        simpa [hstand] using hstop
      · have hgoes : stop ≠ kindAt tokens i := ht ▸ hstop
        obtain ⟨k, hik, hk, hrest⟩ := exists_rest_declaration hi
        rcases hd : declaration statement (standingAt tokens i) with ⟨what | s, rest, noted⟩
        · -- The declaration fails at `k`.
          obtain rfl : rest = standingAt tokens k := by rw [← hrest, hd]
          obtain ⟨q, hq, hskips⟩ := exists_resumes hk
          have hfirst := yields_recover_none hd
          rw [hskips] at hfirst
          have hiq := hq.lt hlt hik
          obtain ⟨body, later, j, hbody, hrounds⟩ := ih _ (by omega) hq.le_endIndex rfl
          refine ⟨body, _, j, ?_, .failed hlt hgoes hd hq hrounds⟩
          rw [hstand] at hfirst ⊢
          simpa using yields_body_cons hstop hfirst hbody
        · -- The declaration is parsed up to `k`.
          obtain rfl : rest = standingAt tokens k := by rw [← hrest, hd]
          have htakes := advances_declaration _ _ _ _ hd
          rw [length_standingAt, length_standingAt] at htakes
          obtain ⟨body, later, j, hbody, hrounds⟩ := ih _ (by omega) hk rfl
          refine ⟨s :: body, _, j, ?_, .parsed hlt hgoes hd hrounds⟩
          have hfirst := yields_recover_some.2 hd
          rw [hstand] at hfirst ⊢
          exact yields_body_cons hstop hfirst hbody
    · refine ⟨[], [], _, yields_body_done ?_, .done (.inl rfl)⟩
      rw [standingAt_of_le (Nat.le_refl _)]
      exact fun t ht => absurd ht (by simp)

theorem exists_rounds_of_block {i : Nat} (hi : i < endIndex tokens)
    (hopen : kindAt tokens i = some .leftBrace) :
    ∃ body noted j, Rounds (some .rightBrace) tokens (i + 1) body noted j ∧
      (j < endIndex tokens ∧ kindAt tokens j = some .rightBrace ∧
          statement (standingAt tokens i) =
            ⟨.ok (.block body), standingAt tokens (j + 1), noted⟩ ∨
        j = endIndex tokens ∧
          statement (standingAt tokens i) = ⟨.error .braceAfterBlock, [], noted⟩) := by
  obtain ⟨t, hstand, ht⟩ := exists_standingAt_eq hi
  have hkind : t.kind = .leftBrace := Option.some.inj (ht.symm.trans hopen)
  have hblock : statement (standingAt tokens i) =
      blockTail statement (standingAt tokens (i + 1)) := by
    rw [statement_eq, hstand, statementAround, hkind, ← statement_eq]
  obtain ⟨body, noted, j, hbody, hrounds⟩ := exists_rounds (some .rightBrace) hi
  refine ⟨body, noted, j, hrounds, ?_⟩
  rw [hblock]
  obtain hend | ⟨hj, hclose⟩ := hrounds.ends
  · -- Nothing is left in the place of the brace.
    rw [hend, standingAt_of_le (Nat.le_refl _)] at hbody
    refine .inr ⟨hend, ?_⟩
    show Parser.bind _ _ _ = _
    unfold Parser.bind
    rw [show bounded _ _ = _ from hbody]
    show (⟨.error .braceAfterBlock, [], noted ++ []⟩ : Outcome Stmt) = _
    rw [List.append_nil]
  · obtain ⟨c, hnext, hc⟩ := exists_standingAt_eq hj
    rw [hnext] at hbody
    refine .inl ⟨hj, hclose.symm, yields_blockTail.2 ⟨body, c, hbody, ?_, rfl⟩⟩
    exact Option.some.inj (hc.symm.trans hclose.symm)

end Parser

/-- After a failure, the block or the program around goes on at the first boundary after the token
at which it failed, with all tokens from there on. -/
theorem recovery_resumes_at_boundary (tokens : List Token) :
    (∀ p < endIndex tokens, ∃ q, IsLeast (boundariesAfter tokens p) q ∧
      Parser.synchronize (standingAt tokens p) = standingAt tokens q) ∧
    Parser.synchronize (standingAt tokens (endIndex tokens)) =
      standingAt tokens (endIndex tokens) ∧
    (∀ i < endIndex tokens, kindAt tokens i = some .leftBrace →
      ∃ body noted j, Rounds (some .rightBrace) tokens (i + 1) body noted j ∧
        (j < endIndex tokens ∧ kindAt tokens j = some .rightBrace ∧
            Parser.statement (standingAt tokens i) =
              ⟨.ok (.block body), standingAt tokens (j + 1), noted⟩ ∨
          j = endIndex tokens ∧
            Parser.statement (standingAt tokens i) = ⟨.error .braceAfterBlock, [], noted⟩)) ∧
    ∃ body noted, Rounds none tokens 0 body noted (endIndex tokens) ∧
      parse tokens = ⟨body, noted.map (·.toError (endToken tokens))⟩ := by
  refine ⟨fun p => Parser.exists_synchronize_eq, Parser.synchronize_endIndex,
    fun i => Parser.exists_rounds_of_block, ?_⟩
  obtain ⟨body, noted, j, hbody, hrounds⟩ := Parser.exists_rounds none (Nat.zero_le _)
  obtain rfl : j = endIndex tokens := by
    obtain hend | ⟨hj, hnone⟩ := hrounds.ends
    · exact hend
    · obtain ⟨t, -, ht⟩ := exists_standingAt_eq hj
      cases hnone.trans ht
  rw [standingAt_eq, List.drop_zero] at hbody
  exact ⟨body, noted, hrounds, parse_eq hbody⟩

theorem recovery_resumes_at_boundary_in_block :
    let tokens := (scan "\x7b ) ; a; \x7d").tokens
    1 < endIndex tokens ∧ IsLeast (boundariesAfter tokens 1) 3 ∧
      Parser.synchronize (standingAt tokens 1) = standingAt tokens 3 ∧
      kindAt tokens 0 = some .leftBrace ∧
      ∃ body noted j, Rounds (some .rightBrace) tokens 1 body noted j ∧
        Parser.statement (standingAt tokens 0) =
          ⟨.ok (.block body), standingAt tokens (j + 1), noted⟩ := by
  intro tokens
  have hone : 1 < endIndex tokens := by decide +kernel
  have hopen : kindAt tokens 0 = some .leftBrace := by decide +kernel
  obtain ⟨hskips, -, hblocks, -⟩ := recovery_resumes_at_boundary tokens
  obtain ⟨q, hleast, hq⟩ := hskips 1 hone
  have hthree : 3 ∈ boundariesAfter tokens 1 :=
    ⟨by decide, by decide +kernel, .inr (.inl (by decide +kernel))⟩
  have htwo : ¬ Boundary tokens 2 := by
    rw [Boundary, not_or, not_or]
    exact ⟨by decide +kernel, by decide +kernel, by decide +kernel⟩
  obtain rfl : q = 3 := by
    have hle := hleast.2 hthree
    have hlt := hleast.1.1
    have hne : q ≠ 2 := fun h => htwo (h ▸ hleast.1.2.2)
    omega
  obtain ⟨body, noted, j, hrounds, ⟨-, -, hblock⟩ | ⟨-, hfails⟩⟩ :=
    hblocks 0 (Nat.lt_of_succ_lt hone) hopen
  · exact ⟨hone, hleast, hq, hopen, body, noted, j, hrounds, hblock⟩
  · have hok : (Parser.statement (standingAt tokens 0)).result.toOption.isSome := by decide +kernel
    rw [hfails] at hok
    cases hok

end Treewalk
