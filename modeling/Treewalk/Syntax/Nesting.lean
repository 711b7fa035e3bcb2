import Treewalk.Syntax.Outcome

/-!
# A parser inside itself

`nested around` counts its levels by the tokens that are left. If `around` calls what is inside
only after taking a token, the count never runs out, and `nested around` is `around` itself.
-/

namespace Treewalk.Parser

variable {α : Type}

/-- Gives back no more than it was given. -/
def Shrinks (p : Parser α) : Prop := ∀ ts, (p ts).rest.length ≤ ts.length

/-- What `around` does depends on what the inner parser does with fewer tokens, and on nothing
else of it. -/
structure Guarded (around : Parser α → Parser α) : Prop where
  shrinks : ∀ p, Shrinks p → Shrinks (around p)
  congr : ∀ p q ts, Shrinks p → Shrinks q →
    (∀ us : List Token, us.length < ts.length → p us = q us) → around p ts = around q ts

theorem shrinks_fail (what : Expectation) : Shrinks (fail what : Parser α) := fun _ => Nat.le_refl _

namespace Guarded

variable {around : Parser α → Parser α}

theorem shrinks_levels (h : Guarded around) : ∀ rounds, Shrinks (levels around rounds)
  | [] => h.shrinks _ (shrinks_fail _)
  | _ :: rounds => h.shrinks _ (h.shrinks_levels rounds)

theorem levels_eq (h : Guarded around) : ∀ b c ts : List Token,
    ts.length ≤ b.length → ts.length ≤ c.length → levels around b ts = levels around c ts
  | [], [], _, _, _ => rfl
  | [], _ :: c, ts, hb, _ => by
    refine h.congr _ _ _ (shrinks_fail _) (h.shrinks_levels c) fun us hu => ?_
    simp at hb
    simp [hb] at hu
  | _ :: b, [], ts, _, hc => by
    refine h.congr _ _ _ (h.shrinks_levels b) (shrinks_fail _) fun us hu => ?_
    simp at hc
    simp [hc] at hu
  | _ :: b, _ :: c, ts, hb, hc => by
    refine h.congr _ _ _ (h.shrinks_levels b) (h.shrinks_levels c) fun us hu => ?_
    simp at hb hc
    exact h.levels_eq b c us (by omega) (by omega)

theorem shrinks_nested (h : Guarded around) : Shrinks (nested around) :=
  fun ts => h.shrinks_levels ts ts

theorem nested_eq (h : Guarded around) : nested around = around (nested around) := by
  funext ts
  match ts with
  | [] => exact h.congr _ _ _ (shrinks_fail _) h.shrinks_nested (by simp)
  | t :: ts =>
    refine h.congr _ _ _ (h.shrinks_levels ts) h.shrinks_nested fun us hu => ?_
    simp at hu
    exact h.levels_eq ts us us (by omega) (Nat.le_refl _)

end Guarded

end Treewalk.Parser
