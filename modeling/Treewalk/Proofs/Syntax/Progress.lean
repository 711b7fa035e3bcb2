import Treewalk.Proofs.Syntax.Statements

/-!
# Every declaration takes a token

A declaration that can be parsed takes a token at least, and recovery from one that cannot skips a
token at least. So the loop over declarations never runs out of rounds, and its bound can be
forgotten: `body_cons`.
-/

namespace Treewalk.Parser

open Token (Kind)

variable {α β : Type}

/-- Takes a token at least, if it succeeds. -/
def Advances (p : Parser α) : Prop :=
  ∀ ts a rest noted, Yields p ts a rest noted → rest.length < ts.length

theorem advances_expressionStatement : Advances expressionStatement := by
  intro ts s rest noted h
  obtain ⟨e, semi, he, -, -⟩ := yields_semicolon.1 h
  exact shrinks_expression.of_yields he

theorem advances_statementAround {p : Parser Stmt} (hp : Shrinks p) :
    Advances (statementAround p) := by
  intro ts s rest noted h
  cases ts with
  | nil => exact advances_expressionStatement [] s rest noted h
  | cons t ts =>
    rcases yields_statementAround.1 h with
      ⟨-, hif⟩ | ⟨-, hprint⟩ | ⟨-, hwhile⟩ | ⟨-, hblock⟩ | ⟨-, hexpr⟩
    · exact Nat.lt_succ_of_le ((shrinks_ifTail hp).of_yields hif)
    · exact Nat.lt_succ_of_le ((shrinks_printTail t).of_yields hprint)
    · exact Nat.lt_succ_of_le ((shrinks_whileTail hp).of_yields hwhile)
    · exact Nat.lt_succ_of_le ((shrinks_blockTail hp).of_yields hblock)
    · exact advances_expressionStatement _ s rest noted hexpr

theorem shrinks_statement : Shrinks statement := guarded_statementAround.shrinks_nested

theorem advances_statement : Advances statement := by
  rw [statement_eq]
  exact advances_statementAround shrinks_statement

theorem advances_declaration : Advances (declaration statement) := by
  intro ts s rest noted h
  cases ts with
  | nil => exact advances_statement [] s rest noted h
  | cons t ts =>
    rcases yields_declaration.1 h with ⟨-, hvar⟩ | ⟨-, hstatement⟩
    · exact Nat.lt_succ_of_le (shrinks_declarationTail.of_yields hvar)
    · exact advances_statement _ s rest noted hstatement

/-! ## Recovery -/

theorem length_synchronize_cons (t : Token) (ts : List Token) :
    (synchronize (t :: ts)).length ≤ ts.length := by
  unfold synchronize
  split
  · exact Nat.le_refl _
  · exact shrinks_synchronize ts

theorem length_recover_cons (t : Token) (ts : List Token) :
    (recover (declaration statement) (t :: ts)).rest.length ≤ ts.length := by
  have hshrinks := shrinks_declaration shrinks_statement (t :: ts)
  unfold recover
  rcases hd : declaration statement (t :: ts) with ⟨_ | s, mid, noted⟩
  · rw [hd] at hshrinks
    cases mid with
    | nil => exact Nat.zero_le _
    | cons u us =>
      have hskips := length_synchronize_cons u us
      exact Nat.le_trans hskips (Nat.le_of_succ_le_succ hshrinks)
  · exact Nat.le_of_lt_succ (advances_declaration _ _ _ _ hd)

/-! ## The loop -/

theorem bind_congr {p : Parser α} {f g : α → Parser β} {ts : List Token}
    (h : ∀ a, f a (p ts).rest = g a (p ts).rest) : (p >>= f) ts = (p >>= g) ts := by
  show Parser.bind p f ts = Parser.bind p g ts
  unfold Parser.bind
  dsimp only
  split
  · rw [h]
  · rfl

theorem declarations_eq {stop : Option Kind} : ∀ b c ts : List Token, ts.length ≤ b.length →
    ts.length ≤ c.length → declarations stop statement b ts = declarations stop statement c ts
  | [], [], _, _, _ => rfl
  | [], _ :: c, ts, hb, _ => by
    obtain rfl : ts = [] := List.eq_nil_of_length_eq_zero (Nat.le_zero.1 hb)
    rfl
  | _ :: b, [], ts, _, hc => by
    obtain rfl : ts = [] := List.eq_nil_of_length_eq_zero (Nat.le_zero.1 hc)
    rfl
  | _ :: b, _ :: c, [], _, _ => rfl
  | _ :: b, _ :: c, t :: ts, hb, hc => by
    have hmid := length_recover_cons t ts
    simp only [List.length_cons, Nat.add_le_add_iff_right] at hb hc
    unfold declarations
    dsimp only
    split
    · rfl
    · refine bind_congr fun first => ?_
      show ((fun others => first.toList ++ others) <$> declarations stop statement b) _ =
        ((fun others => first.toList ++ others) <$> declarations stop statement c) _
      rw [map_apply, map_apply,
        declarations_eq b c _ (Nat.le_trans hmid hb) (Nat.le_trans hmid hc)]

theorem body_cons {stop : Option Kind} {t : Token} (hstop : stop ≠ some t.kind) (ts : List Token) :
    bounded (declarations stop statement) (t :: ts) =
      (recover (declaration statement) >>= fun first =>
        (fun others => first.toList ++ others) <$> bounded (declarations stop statement))
        (t :: ts) := by
  show declarations stop statement (t :: ts) (t :: ts) = _
  rw [declarations]
  simp only [if_neg hstop]
  refine bind_congr fun first => ?_
  show ((fun others => first.toList ++ others) <$> declarations stop statement ts) _ = _
  rw [map_apply, map_apply, declarations_eq ts _ _ (length_recover_cons t ts) (Nat.le_refl _)]
  rfl

theorem program_cons (t : Token) (ts : List Token) :
    program (t :: ts) = (recover (declaration statement) >>= fun first =>
      (fun others => first.toList ++ others) <$> program) (t :: ts) := by
  have hstop : (none : Option Kind) ≠ some t.kind := nofun
  exact body_cons hstop ts

end Treewalk.Parser
