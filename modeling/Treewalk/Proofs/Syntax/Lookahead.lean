import Treewalk.Proofs.Syntax.Statements

/-!
# One token ahead

A parser looks at the tokens that it takes and at the one after them. So what it does with `used`
before `next` is the same whatever follows: it takes `used`, or it balks at `next`. `Settled` puts
the two beside a grammar, with one law a combinator.
-/

namespace Treewalk

open Token (Kind)

/-- A token of a kind. The grammar reads nothing else of it. -/
def Grammar.sample (kind : Kind) : Token := { kind, lexeme := "", line := 1, span := ⟨0, 0⟩ }

namespace Parser

variable {α β : Type}

/-- Takes `used` before `next` and gives `a`, and nothing is expected in vain. -/
def Takes (p : Parser α) (used : List Token) (next : Option Token) (a : α) : Prop :=
  ∀ rest : List Token, rest.head? = next →
    ∃ noted, Yields p (used ++ rest) a rest noted ∧ Clean noted

/-- The first thing expected in vain is `what`, at `next`. -/
def Trips (o : Outcome α) (what : Expectation) (next : Option Token) : Prop :=
  ∃ before later, o.complaints = before ++ ⟨.expected what, next⟩ :: later ∧ Clean before

/-- Goes over `used` and trips at `next`. -/
def Balks (p : Parser α) (used : List Token) (next : Option Token) (what : Expectation) : Prop :=
  ∀ rest : List Token, rest.head? = next → Trips (p (used ++ rest)) what next

theorem head?_append_congr (us : List Token) {rest after : List Token}
    (h : rest.head? = after.head?) : (us ++ rest).head? = (us ++ after).head? := by
  rw [List.head?_append, List.head?_append, h]

theorem clean_nil : Clean [] := by simp [Clean]

theorem clean_of_perm {noted : List Complaint} {bad : List Token}
    (h : noted.Perm (bad.map badTarget)) : Clean noted := by
  intro c hc what
  obtain ⟨equals, -, rfl⟩ := List.mem_map.1 (h.mem_iff.1 hc)
  simp [badTarget]

/-! ## Where a parser trips -/

variable {p : Parser α} {f : α → Parser β} {ts us used rest after : List Token}
  {next : Option Token} {what : Expectation}

theorem complaints_bind {a : α} {mid : List Token} {noted : List Complaint}
    (h : Yields p ts a mid noted) :
    ((p >>= f) ts).complaints = noted ++ (f a mid).complaints := by
  show (Parser.bind p f ts).complaints = _
  unfold Parser.bind
  rw [show p ts = _ from h]
  unfold Outcome.complaints
  dsimp only
  split <;> simp

theorem trips_bind (h : Trips (p ts) what next) : Trips ((p >>= f) ts) what next := by
  obtain ⟨before, later, hc, hclean⟩ := h
  rcases hp : p ts with ⟨failure | a, mid, noted⟩ <;> rw [hp] at hc
  · refine ⟨before, later, ?_, hclean⟩
    show (Parser.bind p f ts).complaints = _
    unfold Parser.bind
    rw [hp]
    exact hc
  · -- Nothing failed yet, so the complaint is one of those noted.
    obtain rfl : noted = before ++ ⟨.expected what, next⟩ :: later := hc
    exact ⟨before, later ++ (f a mid).complaints, by rw [complaints_bind hp]; simp, hclean⟩

theorem trips_after {a : α} {mid : List Token} {noted : List Complaint}
    (hp : Yields p ts a mid noted) (hclean : Clean noted) (h : Trips (f a mid) what next) :
    Trips ((p >>= f) ts) what next := by
  obtain ⟨before, later, hc, hbefore⟩ := h
  refine ⟨noted ++ before, later, ?_, clean_append.2 ⟨hclean, hbefore⟩⟩
  rw [complaints_bind hp, hc, List.append_assoc]

theorem trips_recover (h : Trips (p ts) what next) : Trips (recover p ts) what next := by
  obtain ⟨before, later, hc, hclean⟩ := h
  refine ⟨before, later, ?_, hclean⟩
  rw [← hc]
  unfold recover
  rcases p ts with ⟨_ | a, mid, noted⟩ <;> rfl

theorem Balks.bind (h : Balks p used next what) : Balks (p >>= f) used next what :=
  fun rest hrest => trips_bind (h rest hrest)

theorem Takes.balks {a : α} (hp : Takes p used (us ++ after).head? a)
    (hf : Balks (f a) us after.head? what) : Balks (p >>= f) (used ++ us) after.head? what := by
  intro rest hrest
  obtain ⟨noted, hy, hclean⟩ := hp (us ++ rest) (head?_append_congr us hrest)
  rw [List.append_assoc]
  exact trips_after hy hclean (hf rest hrest)

/-! ## Single tokens -/

theorem takes_accept_none {kind : Kind} (h : ∀ t ∈ next, t.kind ≠ kind) :
    Takes (accept kind) [] next none := by
  rintro rest rfl
  exact ⟨[], yields_accept_none.2 ⟨rfl, h, rfl⟩, clean_nil⟩

theorem takes_accept_some {kind : Kind} {t : Token} (hk : t.kind = kind) :
    Takes (accept kind) [t] next (some t) :=
  fun _ _ => ⟨[], yields_accept_some.2 ⟨rfl, hk, rfl⟩, clean_nil⟩

theorem takes_expect {kind : Kind} {t : Token} (hk : t.kind = kind) :
    Takes (expect kind what) [t] next t :=
  fun _ _ => ⟨[], yields_expect.2 ⟨rfl, hk, rfl⟩, clean_nil⟩

theorem balks_of_fail (h : ∀ rest : List Token, rest.head? = next → p rest = fail what rest) :
    Balks p [] next what := by
  rintro rest rfl
  exact ⟨[], [], by rw [List.nil_append, h rest rfl]; rfl, clean_nil⟩

theorem balks_expect {kind : Kind} (h : ∀ t ∈ next, t.kind ≠ kind) :
    Balks (expect kind what) [] next what := by
  intro rest hrest
  obtain ⟨noted, hy, hclean⟩ := takes_accept_none h rest hrest
  exact trips_after hy hclean (balks_of_fail (fun _ _ => rfl) rest hrest)

/-! ## Beside a grammar

`derives` says what is derived as which tree, and `ends` before which tokens the tree is done. -/

/-- The tokens start with something derived that ends there, or the parser balks inside something
derived. -/
inductive Settled (p : Parser α) (derives : List Token → α → Prop)
    (ends : α → Option Token → Prop) : List Token → Prop
  | whole (used rest : List Token) (a : α) : derives used a → ends a rest.head? →
    Settled p derives ends (used ++ rest)
  | balked (used rest more : List Token) (what : Expectation) (a : α) :
    Balks p used rest.head? what → derives (used ++ more) a →
    Settled p derives ends (used ++ rest)

/-- Whatever is derived and ends there is taken. -/
def Accepts (p : Parser α) (derives : List Token → α → Prop) (ends : α → Option Token → Prop) :
    Prop :=
  ∀ used next a, derives used a → ends a next → Takes p used next a

variable {derives : List Token → α → Prop} {ends : α → Option Token → Prop}
  {derives' : List Token → β → Prop} {ends' : β → Option Token → Prop}

theorem Settled.here (a : α) (h : derives [] a) (hends : ends a ts.head?) :
    Settled p derives ends ts :=
  .whole [] ts a h hends

theorem Settled.mono {q : Parser α} {derives' : List Token → α → Prop}
    {ends' : α → Option Token → Prop} (h : Settled p derives ends ts)
    (hpq : ∀ us, us.head? = ts.head? → q us = p us) (hd : ∀ us a, derives us a → derives' us a)
    (he : ∀ a next, ends a next → ends' a next) : Settled q derives' ends' ts := by
  cases h with
  | whole used rest a hw hends => exact .whole used rest a (hd _ _ hw) (he _ _ hends)
  | balked used rest more what a hb hmore =>
    refine .balked used rest more what a (fun after hafter => ?_) (hd _ _ hmore)
    rw [hpq _ (head?_append_congr used hafter)]
    exact hb after hafter

theorem Settled.cons {q : Parser α} {t : Token}
    (h : Settled p (fun us a => derives (t :: us) a) ends ts) (hq : ∀ us, q (t :: us) = p us) :
    Settled q derives ends (t :: ts) := by
  cases h with
  | whole used rest a hw hends => exact .whole (t :: used) rest a hw hends
  | balked used rest more what a hb hmore =>
    refine .balked (t :: used) rest more what a (fun rest hrest => ?_) hmore
    rw [List.cons_append, hq]
    exact hb rest hrest

theorem Takes.settled {a : α} (hp : Takes p used rest.head? a)
    (hf : Settled (f a) (fun us b => derives' (used ++ us) b) ends' rest) :
    Settled (p >>= f) derives' ends' (used ++ rest) := by
  cases hf with
  | whole us after b hw hends =>
    rw [← List.append_assoc]
    exact .whole (used ++ us) after b hw hends
  | balked us after more what b hb hmore =>
    rw [← List.append_assoc]
    refine .balked (used ++ us) after more what b (hp.balks hb) ?_
    rw [List.append_assoc]
    exact hmore

/-- One parser after another. What the first derives can be gone on with, so a part of it can. -/
theorem Settled.bind (hp : Settled p derives ends ts) (haccepts : Accepts p derives ends)
    (hope : ∀ used a, derives used a → ∃ more b, derives' (used ++ more) b)
    (hf : ∀ used a rest, ts = used ++ rest → derives used a → ends a rest.head? →
      Settled (f a) (fun us b => derives' (used ++ us) b) ends' rest) :
    Settled (p >>= f) derives' ends' ts := by
  cases hp with
  | whole used rest a hw hends =>
    exact (haccepts used _ a hw hends).settled (hf used a rest rfl hw hends)
  | balked used rest more what a hb hmore =>
    obtain ⟨later, b, hd⟩ := hope _ _ hmore
    refine .balked used rest (more ++ later) what b hb.bind ?_
    rw [← List.append_assoc]
    exact hd

theorem Settled.map {g : α → β} (hp : Settled p derives ends ts)
    (hd : ∀ us a, derives us a → derives' us (g a))
    (he : ∀ a next, ends a next → ends' (g a) next) : Settled (g <$> p) derives' ends' ts := by
  cases hp with
  | whole used rest a hw hends => exact .whole used rest (g a) (hd _ _ hw) (he _ _ hends)
  | balked used rest more what a hb hmore =>
    exact .balked used rest more what (g a) hb.bind (hd _ _ hmore)

theorem head_cases (kind : Kind) (ts : List Token) :
    (∃ t us, ts = t :: us ∧ t.kind = kind) ∨ ∀ t ∈ ts.head?, t.kind ≠ kind := by
  cases ts with
  | nil => exact .inr (by simp)
  | cons t us => by_cases hk : t.kind = kind <;> simp [hk]

theorem Settled.expect_bind {kind : Kind} {f : Token → Parser β}
    (hope : ∃ more b, derives' more b)
    (hf : ∀ t us, ts = t :: us → t.kind = kind →
      Settled (f t) (fun us b => derives' (t :: us) b) ends' us) :
    Settled (expect kind what >>= f) derives' ends' ts := by
  rcases head_cases kind ts with ⟨t, us, rfl, hk⟩ | hno
  · have htakes : Takes (expect kind what) [t] us.head? t := takes_expect hk
    exact htakes.settled (hf t us rfl hk)
  · obtain ⟨more, b, hd⟩ := hope
    exact .balked [] ts more what b (balks_expect hno).bind hd

theorem Settled.accept_bind {kind : Kind} {f : Option Token → Parser β}
    (hnone : (∀ t ∈ ts.head?, t.kind ≠ kind) → Settled (f none) derives' ends' ts)
    (hsome : ∀ t us, ts = t :: us → t.kind = kind →
      Settled (f (some t)) (fun us b => derives' (t :: us) b) ends' us) :
    Settled (accept kind >>= f) derives' ends' ts := by
  rcases head_cases kind ts with ⟨t, us, rfl, hk⟩ | hno
  · have htakes : Takes (accept kind) [t] us.head? (some t) := takes_accept_some hk
    exact htakes.settled (hsome t us rfl hk)
  · exact (takes_accept_none hno).settled (hnone hno)

theorem Settled.closed {kind : Kind} {build : α → β} (hp : Settled p derives ends ts)
    (haccepts : Accepts p derives ends)
    (hd : ∀ us a c, derives us a → c.kind = kind → derives' (us ++ [c]) (build a))
    (he : ∀ a next, ends' (build a) next) :
    Settled (p >>= fun a => expect kind what >>= fun _ => pure (build a)) derives' ends' ts := by
  refine hp.bind haccepts (fun us a h => ⟨[Grammar.sample kind], _, hd us a _ h rfl⟩) ?_
  intro us a rest _ h _
  refine Settled.expect_bind ⟨[Grammar.sample kind], _, hd us a _ h rfl⟩ fun c _ _ hc => ?_
  exact .here (build a) (hd us a c h hc) (he _ _)

end Parser

end Treewalk
