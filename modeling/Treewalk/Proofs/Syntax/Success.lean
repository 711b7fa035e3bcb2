import Treewalk.Syntax.Parser

/-!
# When a parser succeeds

`Yields p ts a rest noted` says that `p` takes the front of `ts`, gives `a`, leaves `rest` and
notes `noted` on the way. One law a combinator says exactly when it does.
-/

namespace Treewalk.Parser

open Token (Kind)

variable {α β : Type}

def Yields (p : Parser α) (ts : List Token) (a : α) (rest : List Token)
    (noted : List Complaint) : Prop :=
  p ts = ⟨.ok a, rest, noted⟩

/-! ## Combinators -/

theorem yields_pure {a b : α} {ts rest : List Token} {noted : List Complaint} :
    Yields (pure a) ts b rest noted ↔ b = a ∧ rest = ts ∧ noted = [] := by
  show (⟨.ok a, ts, []⟩ : Outcome α) = _ ↔ _
  rw [Outcome.mk.injEq, Except.ok.injEq]
  grind

theorem yields_bind {p : Parser α} {f : α → Parser β} {ts rest : List Token} {b : β}
    {noted : List Complaint} :
    Yields (p >>= f) ts b rest noted ↔
      ∃ a mid before after, Yields p ts a mid before ∧ Yields (f a) mid b rest after ∧
        noted = before ++ after := by
  show Parser.bind p f ts = _ ↔ _
  unfold Parser.bind Yields
  constructor
  · intro h
    rcases hp : p ts with ⟨_ | a, mid, before⟩
    · simp [hp] at h
    · simp only [hp] at h
      rcases hf : f a mid with ⟨r, rest', after⟩
      rw [hf] at h
      obtain ⟨rfl, rfl, rfl⟩ := Outcome.mk.inj h
      exact ⟨a, mid, before, after, rfl, hf, rfl⟩
  · rintro ⟨a, mid, before, after, hp, hf, rfl⟩
    simp [hp, hf]

theorem bind_of_yields {p : Parser α} {f : α → Parser β} {ts mid : List Token} {a : α}
    (h : Yields p ts a mid []) : (p >>= f) ts = f a mid := by
  show Parser.bind p f ts = _
  unfold Parser.bind
  rw [show p ts = _ from h]
  rfl

theorem not_yields_fail {what : Expectation} {ts rest : List Token} {a : α}
    {noted : List Complaint} : ¬ Yields (fail what) ts a rest noted := by
  simp [Yields, fail]

theorem yields_map {f : α → β} {p : Parser α} {ts rest : List Token} {b : β}
    {noted : List Complaint} :
    Yields (f <$> p) ts b rest noted ↔ ∃ a, Yields p ts a rest noted ∧ b = f a := by
  show Yields (p >>= fun a => pure (f a)) ts b rest noted ↔ _
  simp only [yields_bind, yields_pure]
  constructor
  · rintro ⟨a, mid, before, after, hp, ⟨rfl, rfl, rfl⟩, rfl⟩
    exact ⟨a, by simpa using hp, rfl⟩
  · rintro ⟨a, hp, rfl⟩
    exact ⟨a, rest, noted, [], hp, ⟨rfl, rfl, rfl⟩, by simp⟩

theorem map_apply (g : α → β) (p : Parser α) (ts : List Token) : (g <$> p) ts = (p ts).map g := by
  show Parser.bind p (fun a => pure (g a)) ts = _
  unfold Parser.bind
  rcases p ts with ⟨_ | a, mid, noted⟩
  · rfl
  · show (⟨.ok (g a), mid, noted ++ []⟩ : Outcome β) = ⟨.ok (g a), mid, noted⟩
    rw [List.append_nil]

theorem map_bind {γ : Type} (g : α → β) (p : Parser α) (f : β → Parser γ) :
    (g <$> p) >>= f = p >>= fun a => f (g a) := by
  funext ts
  show Parser.bind (g <$> p) f ts = Parser.bind p _ ts
  unfold Parser.bind
  rw [map_apply]
  rcases p ts with ⟨_ | a, mid, noted⟩ <;> rfl

theorem yields_note {cause : SyntaxError.Cause} {t : Token} {ts rest : List Token} {u : Unit}
    {noted : List Complaint} :
    Yields (note cause t) ts u rest noted ↔ rest = ts ∧ noted = [⟨cause, some t⟩] := by
  simp only [Yields, note, Outcome.mk.injEq, true_and]
  grind

/-! ## Single tokens -/

theorem yields_accept_some {kind : Kind} {ts rest : List Token} {t : Token}
    {noted : List Complaint} :
    Yields (accept kind) ts (some t) rest noted ↔ ts = t :: rest ∧ t.kind = kind ∧ noted = [] := by
  unfold Yields
  cases ts with
  | nil => simp [accept]
  | cons u us =>
    by_cases h : u.kind = kind <;> simp only [accept, h, if_true, if_false] <;> grind

theorem yields_accept_none {kind : Kind} {ts rest : List Token} {noted : List Complaint} :
    Yields (accept kind) ts none rest noted ↔
      rest = ts ∧ (∀ t ∈ ts.head?, t.kind ≠ kind) ∧ noted = [] := by
  unfold Yields
  cases ts with
  | nil => simp only [accept]; grind
  | cons u us =>
    by_cases h : u.kind = kind <;> simp only [accept, h, if_true, if_false] <;> grind

theorem yields_expect {kind : Kind} {what : Expectation} {ts rest : List Token} {t : Token}
    {noted : List Complaint} :
    Yields (expect kind what) ts t rest noted ↔ ts = t :: rest ∧ t.kind = kind ∧ noted = [] := by
  unfold expect
  rw [yields_bind]
  constructor
  · rintro ⟨_ | u, mid, before, after, hu, ht, rfl⟩
    · exact absurd ht not_yields_fail
    · obtain ⟨rfl, hk, rfl⟩ := yields_accept_some.1 hu
      obtain ⟨rfl, rfl, rfl⟩ := yields_pure.1 ht
      exact ⟨rfl, hk, rfl⟩
  · rintro ⟨rfl, hk, rfl⟩
    exact ⟨some t, rest, [], [], yields_accept_some.2 ⟨rfl, hk, rfl⟩,
      yields_pure.2 ⟨rfl, rfl, rfl⟩, rfl⟩

theorem yields_expect_bind {kind : Kind} {what : Expectation} {f : Token → Parser β}
    {ts rest : List Token} {b : β} {noted : List Complaint} :
    Yields (expect kind what >>= f) ts b rest noted ↔
      ∃ t us, ts = t :: us ∧ t.kind = kind ∧ Yields (f t) us b rest noted := by
  rw [yields_bind]
  constructor
  · rintro ⟨t, us, before, after, ht, h, rfl⟩
    obtain ⟨rfl, hk, rfl⟩ := yields_expect.1 ht
    exact ⟨t, us, rfl, hk, h⟩
  · rintro ⟨t, us, rfl, hk, h⟩
    exact ⟨t, us, [], noted, yields_expect.2 ⟨rfl, hk, rfl⟩, h, rfl⟩

theorem yields_accept_bind {kind : Kind} {f : Option Token → Parser β} {ts rest : List Token}
    {b : β} {noted : List Complaint} :
    Yields (accept kind >>= f) ts b rest noted ↔
      ((∀ t ∈ ts.head?, t.kind ≠ kind) ∧ Yields (f none) ts b rest noted) ∨
      ∃ t us, ts = t :: us ∧ t.kind = kind ∧ Yields (f (some t)) us b rest noted := by
  rw [yields_bind]
  constructor
  · rintro ⟨_ | t, us, before, after, ht, h, rfl⟩
    · obtain ⟨rfl, hno, rfl⟩ := yields_accept_none.1 ht
      exact .inl ⟨hno, h⟩
    · obtain ⟨rfl, hk, rfl⟩ := yields_accept_some.1 ht
      exact .inr ⟨t, us, rfl, hk, h⟩
  · rintro (⟨hno, h⟩ | ⟨t, us, rfl, hk, h⟩)
    · exact ⟨none, ts, [], noted, yields_accept_none.2 ⟨rfl, hno, rfl⟩, h, rfl⟩
    · exact ⟨some t, us, [], noted, yields_accept_some.2 ⟨rfl, hk, rfl⟩, h, rfl⟩

theorem yields_finish {what : Expectation} {ts rest : List Token} {u : Unit}
    {noted : List Complaint} :
    Yields (finish what) ts u rest noted ↔ ts = [] ∧ rest = [] ∧ noted = [] := by
  cases ts with
  | nil => simp only [Yields, finish]; grind
  | cons t ts => simp [Yields, finish]

/-! ## Recovery -/

theorem yields_recover_some {p : Parser α} {ts rest : List Token} {a : α}
    {noted : List Complaint} :
    Yields (recover p) ts (some a) rest noted ↔ Yields p ts a rest noted := by
  unfold Yields recover
  rcases p ts with ⟨_ | b, mid, before⟩ <;> simp

theorem expected_of_yields_recover_none {p : Parser α} {ts rest : List Token}
    {noted : List Complaint} (h : Yields (recover p) ts none rest noted) :
    ∃ c ∈ noted, ∃ what, c.cause = .expected what := by
  unfold Yields recover at h
  rcases hp : p ts with ⟨what | b, mid, before⟩
  · simp only [hp, Outcome.complaints, Outcome.mk.injEq, true_and] at h
    exact ⟨⟨.expected what, mid.head?⟩, by rw [← h.2]; simp, what, rfl⟩
  · simp [hp] at h

end Treewalk.Parser
