import Mathlib
import Treewalk.Lexeme

/-!
# Classes of lexeme

`Fits` says which texts a lexeme of each kind can be, and what may follow it. What begins with
a character that is not blank can be split in one way into a lexeme and the rest, and `munch` finds
that split.
-/

namespace Treewalk.Lexeme

def operators : List (List Char × Token.Kind) :=
  [(['('], .leftParen), ([')'], .rightParen), (['\x7b'], .leftBrace), (['\x7d'], .rightBrace),
    ([','], .comma), (['.'], .dot), (['-'], .minus), (['+'], .plus), ([';'], .semicolon),
    (['/'], .slash), (['*'], .star), (['!'], .bang), (['!', '='], .bangEqual), (['='], .equal),
    (['=', '='], .equalEqual), (['>'], .greater), (['>', '='], .greaterEqual), (['<'], .less),
    (['<', '='], .lessEqual)]

/-- Would the two characters be another lexeme, a longer operator or the start of a comment? -/
def extends? (c next : Char) : Bool :=
  (next = '=' && (c = '!' || c = '=' || c = '>' || c = '<')) ||
    (c = '/' && (next = '/' || next = '*'))

/-- The characters that a lexeme with a class of its own can start with. -/
def opens (c : Char) : Bool :=
  c.isDigit || c = '"' || startsWord c || operators.any fun (text, _) => text.head? = some c

/-- `Fits kind text after`: where `after` follows, `text` is a whole lexeme of this kind. -/
inductive Fits : Kind → List Char → List Char → Prop
  | lineComment {body after} : '\n' ∉ body → (∀ c ∈ after.head?, c = '\n') →
    Fits .comment ('/' :: '/' :: body) after
  -- The first `*/` after the opening is the one at the end. In `/*/` it has not come yet.
  | blockComment {body after} : ¬ ['*', '/'] <:+: body ++ ['*'] →
    Fits .comment ('/' :: '*' :: (body ++ ['*', '/'])) after
  | openComment {body} : ¬ ['*', '/'] <:+: body →
    Fits .unterminatedComment ('/' :: '*' :: body) []
  | whole {c more after} : Char.isDigit c → (∀ d ∈ more, d.isDigit) →
    (∀ d ∈ after.head?, ¬ d.isDigit) → (∀ d rest, after = '.' :: d :: rest → ¬ d.isDigit) →
    Fits .number (c :: more) after
  | fraction {c more d digits after} : Char.isDigit c → (∀ e ∈ more, e.isDigit) →
    Char.isDigit d → (∀ e ∈ digits, e.isDigit) → (∀ e ∈ after.head?, ¬ e.isDigit) →
    Fits .number (c :: (more ++ '.' :: d :: digits)) after
  | string {body after} : '"' ∉ body → Fits .string ('"' :: (body ++ ['"'])) after
  | openString {body} : '"' ∉ body → Fits .unterminatedString ('"' :: body) []
  | keyword {c more kind after} : startsWord c → (∀ d ∈ more, inWord d) →
    (∀ d ∈ after.head?, ¬ inWord d) → Token.Kind.keyword? (.ofList (c :: more)) = some kind →
    Fits (.token kind) (c :: more) after
  | identifier {c more after} : startsWord c → (∀ d ∈ more, inWord d) →
    (∀ d ∈ after.head?, ¬ inWord d) → Token.Kind.keyword? (.ofList (c :: more)) = none →
    Fits .identifier (c :: more) after
  | operator {text kind after} : (text, kind) ∈ operators →
    (∀ c d, text = [c] → d ∈ after.head? → ¬ extends? c d) → Fits (.token kind) text after
  | unexpected {c after} : ¬ isBlank c → ¬ opens c → Fits (.unexpected c) [c] after

theorem not_isBlank_of_opens {c : Char} (h : opens c) : ¬ isBlank c := by
  intro hblank
  simp only [isBlank, Bool.or_eq_true, decide_eq_true_eq] at hblank
  obtain ((rfl | rfl) | rfl) | rfl := hblank <;> exact absurd h (by decide)

theorem Fits.head {kind : Kind} {text after : List Char} (h : Fits kind text after) :
    ∃ c more, text = c :: more ∧ ¬ isBlank c := by
  cases h with
  | lineComment | blockComment | openComment | string | openString =>
    exact ⟨_, _, rfl, by decide⟩
  | whole hc | fraction hc => exact ⟨_, _, rfl, not_isBlank_of_opens (by simp [opens, hc])⟩
  | keyword hc | identifier hc => exact ⟨_, _, rfl, not_isBlank_of_opens (by simp [opens, hc])⟩
  | operator hop =>
    have hall : ∀ op ∈ operators, op.1.head?.any fun c => !isBlank c := by decide
    obtain ⟨c, hc, hblank⟩ := (Option.any_eq_true _ _).1 (hall _ hop)
    obtain ⟨more, rfl⟩ := List.head?_eq_some_iff.1 hc
    exact ⟨c, more, rfl, by simpa using hblank⟩
  | unexpected hblank => exact ⟨_, [], rfl, hblank⟩

/-! ## There is a split -/

theorem exists_run (p : Char → Bool) (text : List Char) : ∃ body after,
    text = body ++ after ∧ (∀ c ∈ body, p c) ∧ ∀ c ∈ after.head?, ¬ p c := by
  induction text with
  | nil => exact ⟨[], [], rfl, by simp, by simp⟩
  | cons c text ih =>
    by_cases hc : p c
    · obtain ⟨body, after, rfl, hbody, hafter⟩ := ih
      exact ⟨c :: body, after, rfl, by simpa [hc] using hbody, hafter⟩
    · exact ⟨[], c :: text, rfl, by simp, by simpa using hc⟩

theorem exists_first_close {text : List Char} (h : ['*', '/'] <:+: text) : ∃ body after,
    text = body ++ '*' :: '/' :: after ∧ ¬ ['*', '/'] <:+: body ++ ['*'] := by
  induction text with
  | nil => simp at h
  | cons c text ih =>
    by_cases hc : ['*', '/'] <+: c :: text
    · obtain ⟨after, hafter⟩ := hc
      exact ⟨[], after, hafter.symm, by simp [List.infix_cons_iff]⟩
    · obtain ⟨body, after, rfl, hbody⟩ := ih ((List.infix_cons_iff.1 h).resolve_left hc)
      refine ⟨c :: body, after, rfl, ?_⟩
      rw [List.cons_append, List.infix_cons_iff]
      rintro (hfront | hinfix)
      · -- A close that starts at `c` would be there with the rest of the text, too.
        refine hc (hfront.trans ?_)
        exact ⟨'/' :: after, by simp⟩
      · exact hbody hinfix

theorem exists_operator_of_head {c : Char}
    (h : operators.any fun (text, _) => text.head? = some c) : ∃ kind, ([c], kind) ∈ operators := by
  have hshort : ∀ op ∈ operators, ∃ short ∈ operators, short.1 = op.1.take 1 := by decide
  obtain ⟨op, hop, hhead⟩ := List.any_eq_true.1 h
  obtain ⟨more, hmore⟩ := List.head?_eq_some_iff.1 (of_decide_eq_true hhead)
  obtain ⟨⟨text, kind⟩, hkind, htext⟩ := hshort op hop
  obtain rfl : text = [c] := by simpa [hmore] using htext
  exact ⟨kind, hkind⟩

theorem exists_operator_of_extends {c d : Char} (h : extends? c d) (hc : c ≠ '/') :
    d = '=' ∧ ∃ kind, ([c, '='], kind) ∈ operators := by
  simp only [extends?, hc, Bool.or_eq_true, Bool.and_eq_true, decide_eq_true_eq, false_and,
    or_false] at h
  obtain ⟨rfl, ((rfl | rfl) | rfl) | rfl⟩ := h
  · exact ⟨rfl, .bangEqual, by decide⟩
  · exact ⟨rfl, .equalEqual, by decide⟩
  · exact ⟨rfl, .greaterEqual, by decide⟩
  · exact ⟨rfl, .lessEqual, by decide⟩

theorem exists_fits_operator {c : Char} {kind : Token.Kind} (hop : ([c], kind) ∈ operators)
    {text : List Char} (hcomment : c = '/' → ∀ d ∈ text.head?, ¬ extends? c d) :
    ∃ kind more after, text = more ++ after ∧ Fits kind (c :: more) after := by
  by_cases hnext : ∀ d ∈ text.head?, ¬ extends? c d
  · refine ⟨_, [], text, rfl, .operator hop fun c' d hc hd => ?_⟩
    obtain rfl : c = c' := by simpa using hc
    exact hnext d hd
  · cases text with
    | nil => simp at hnext
    | cons d rest =>
      have hext : extends? c d := by simpa using hnext
      obtain ⟨rfl, longer, hlonger⟩ :=
        exists_operator_of_extends hext fun hc => hcomment hc d rfl hext
      exact ⟨_, ['='], rest, rfl, .operator hlonger (by simp)⟩

theorem exists_fits_slash (text : List Char) : ∃ kind more after,
    text = more ++ after ∧ Fits kind ('/' :: more) after := by
  by_cases hline : text.head? = some '/'
  · obtain ⟨rest, rfl⟩ := List.head?_eq_some_iff.1 hline
    obtain ⟨body, after, rfl, hbody, hafter⟩ := exists_run (· ≠ '\n') rest
    exact ⟨_, '/' :: body, after, rfl,
      .lineComment (fun h => by simpa using hbody _ h) (by simpa using hafter)⟩
  by_cases hblock : text.head? = some '*'
  · obtain ⟨rest, rfl⟩ := List.head?_eq_some_iff.1 hblock
    by_cases hclose : ['*', '/'] <:+: rest
    · obtain ⟨body, after, rfl, hbody⟩ := exists_first_close hclose
      exact ⟨_, '*' :: (body ++ ['*', '/']), after, by simp, .blockComment hbody⟩
    · exact ⟨_, '*' :: rest, [], by simp, .openComment hclose⟩
  have hslash : (['/'], .slash) ∈ operators := by simp [operators]
  refine exists_fits_operator hslash fun _ d hd hext => ?_
  simp only [Option.mem_def] at hd
  simp_all [extends?]

theorem exists_fits_digit {c : Char} (hc : c.isDigit) (text : List Char) : ∃ kind more after,
    text = more ++ after ∧ Fits kind (c :: more) after := by
  obtain ⟨more, after, rfl, hmore, hafter⟩ := exists_run Char.isDigit text
  by_cases hpoint : ∃ d rest, after = '.' :: d :: rest ∧ d.isDigit
  · obtain ⟨d, rest, rfl, hd⟩ := hpoint
    obtain ⟨digits, after, rfl, hdigits, hafter⟩ := exists_run Char.isDigit rest
    exact ⟨_, more ++ '.' :: d :: digits, after, by simp, .fraction hc hmore hd hdigits hafter⟩
  · exact ⟨_, more, after, rfl, .whole hc hmore hafter fun d rest h hd => hpoint ⟨d, rest, h, hd⟩⟩

theorem exists_fits_quote (text : List Char) : ∃ kind more after,
    text = more ++ after ∧ Fits kind ('"' :: more) after := by
  obtain ⟨body, after, rfl, hbody, hafter⟩ := exists_run (· ≠ '"') text
  have hquote : '"' ∉ body := fun h => by simpa using hbody _ h
  cases after with
  | nil => exact ⟨_, body, [], rfl, .openString hquote⟩
  | cons c after =>
    obtain rfl : c = '"' := by simpa using hafter c rfl
    exact ⟨_, body ++ ['"'], after, by simp, .string hquote⟩

theorem exists_fits_word {c : Char} (hc : startsWord c) (text : List Char) : ∃ kind more after,
    text = more ++ after ∧ Fits kind (c :: more) after := by
  obtain ⟨more, after, rfl, hmore, hafter⟩ := exists_run inWord text
  cases hkey : Token.Kind.keyword? (.ofList (c :: more)) with
  | some kind => exact ⟨_, more, after, rfl, .keyword hc hmore hafter hkey⟩
  | none => exact ⟨_, more, after, rfl, .identifier hc hmore hafter hkey⟩

theorem exists_fits {c : Char} (hc : ¬ isBlank c) (text : List Char) : ∃ kind more after,
    text = more ++ after ∧ Fits kind (c :: more) after := by
  by_cases hopens : opens c
  · simp only [opens, Bool.or_eq_true, decide_eq_true_eq] at hopens
    obtain ((hdigit | rfl) | hword) | hop := hopens
    · exact exists_fits_digit hdigit text
    · exact exists_fits_quote text
    · exact exists_fits_word hword text
    · by_cases hslash : c = '/'
      · exact hslash ▸ exists_fits_slash text
      · obtain ⟨kind, hkind⟩ := exists_operator_of_head hop
        exact exists_fits_operator hkind fun h => absurd h hslash
  · exact ⟨_, [], text, rfl, .unexpected hc hopens⟩

/-! ## It is the split that is found -/

theorem takeWhile_run {p : Char → Bool} {body after : List Char} (hbody : ∀ c ∈ body, p c)
    (hafter : ∀ c ∈ after.head?, ¬ p c) : (body ++ after).takeWhile p = body := by
  rw [List.takeWhile_append_of_pos hbody]
  cases after with
  | nil => simp
  | cons c after => rw [List.takeWhile_cons_of_neg (hafter c rfl), List.append_nil]

theorem quotedLength?_append {body : List Char} (h : '"' ∉ body) (after : List Char) :
    quotedLength? (body ++ '"' :: after) = some (body.length + 1) := by
  induction body with
  | nil => rfl
  | cons c body ih =>
    simp only [List.mem_cons, not_or] at h
    simp [quotedLength?, Ne.symm h.1, ih h.2]

theorem quotedLength?_eq_none {text : List Char} (h : '"' ∉ text) : quotedLength? text = none := by
  induction text with
  | nil => rfl
  | cons c text ih =>
    simp only [List.mem_cons, not_or] at h
    simp [quotedLength?, Ne.symm h.1, ih h.2]

theorem commentLength?_append {body : List Char} (h : ¬ ['*', '/'] <:+: body ++ ['*'])
    (after : List Char) :
    commentLength? (body ++ '*' :: '/' :: after) = some (body.length + 2) := by
  induction body with
  | nil => rfl
  | cons c body ih =>
    rw [List.cons_append, List.infix_cons_iff, not_or] at h
    rw [List.cons_append, commentLength?, ih h.2]
    · rfl
    · -- The text does not close at `c`.
      rintro rest rfl hrest
      refine h.1 (List.cons_prefix_cons.2 ⟨rfl, ?_⟩)
      cases body <;> simp_all

theorem commentLength?_eq_none {text : List Char} (h : ¬ ['*', '/'] <:+: text) :
    commentLength? text = none := by
  induction text with
  | nil => rfl
  | cons c text ih =>
    rw [List.infix_cons_iff, not_or] at h
    rw [commentLength?, ih h.2]
    · rfl
    · rintro rest rfl rfl
      exact h.1 (by simp)

theorem not_isDigit_of_startsWord {c : Char} (h : startsWord c) : ¬ c.isDigit := by
  simp only [startsWord, Char.isAlpha, Char.isUpper, Char.isLower, Char.isDigit, Bool.or_eq_true,
    Bool.and_eq_true, decide_eq_true_eq, UInt32.le_iff_toNat_le, ge_iff_le] at h ⊢
  rcases h with (h | h) | rfl
  · have := UInt32.le_iff_toNat_le.1 h.1
    simp at this ⊢
    omega
  · simp at h ⊢
    omega
  · decide

theorem munch_word {c : Char} (hc : startsWord c) (text : List Char) :
    munch c text = (wordKind (c :: text.takeWhile inWord), (text.takeWhile inWord).length) := by
  have hslash : c ≠ '/' := by rintro rfl; simp [startsWord] at hc
  have hquote : c ≠ '"' := by rintro rfl; simp [startsWord] at hc
  simp [munch, hslash, hquote, hc, not_isDigit_of_startsWord hc]

theorem munch_digit {c : Char} (hc : c.isDigit) (text : List Char) :
    munch c text = (.number, afterDigit text) := by
  have hslash : c ≠ '/' := by rintro rfl; simp at hc
  simp [munch, hslash, hc]

theorem munch_unexpected {c : Char} (hc : ¬ opens c) (text : List Char) :
    munch c text = (.unexpected c, 0) := by
  have hslash : c ≠ '/' := by rintro rfl; exact hc (by decide)
  have hquote : c ≠ '"' := by rintro rfl; exact hc (by decide)
  have hdigit : ¬ c.isDigit := fun h => hc (by simp [opens, h])
  have hword : ¬ startsWord c := fun h => hc (by simp [opens, h])
  rw [munch, if_neg hslash, if_neg hdigit, if_neg hquote, if_neg hword, operator.eq_def]
  split
  case h_15 => rfl
  all_goals exact absurd (by decide) hc

theorem orEqual_of_not_extends {c : Char} (hc : c = '!' ∨ c = '=' ∨ c = '>' ∨ c = '<')
    {after : List Char} (h : ∀ d ∈ after.head?, ¬ extends? c d) (alone withEqual : Token.Kind) :
    orEqual alone withEqual after = (.token alone, 0) := by
  unfold orEqual
  split
  · next rest =>
    refine absurd ?_ (h '=' rfl)
    rcases hc with rfl | rfl | rfl | rfl <;> rfl
  · rfl

theorem afterSlash_of_not_extends {after : List Char} (h : ∀ d ∈ after.head?, ¬ extends? '/' d) :
    afterSlash after = (.token .slash, 0) := by
  unfold afterSlash
  split
  · exact absurd rfl (h '/' rfl)
  · exact absurd rfl (h '*' rfl)
  · rfl

theorem munch_operator {c : Char} {more after : List Char} {kind : Token.Kind}
    (hop : (c :: more, kind) ∈ operators)
    (hafter : ∀ d ∈ after.head?, more = [] → ¬ extends? c d) :
    munch c (more ++ after) = (.token kind, more.length) := by
  simp only [operators, List.mem_cons, Prod.mk.injEq, List.cons.injEq, List.not_mem_nil,
    or_false] at hop
  rcases hop with h | h | h | h | h | h | h | h | h | h | h | h | h | h | h | h | h | h | h
  all_goals obtain ⟨⟨rfl, rfl⟩, rfl⟩ := h
  any_goals rfl
  · exact afterSlash_of_not_extends fun d hd => hafter d hd rfl
  · exact orEqual_of_not_extends (by simp) (fun d hd => hafter d hd rfl) .bang .bangEqual
  · exact orEqual_of_not_extends (by simp) (fun d hd => hafter d hd rfl) .equal .equalEqual
  · exact orEqual_of_not_extends (by simp) (fun d hd => hafter d hd rfl) .greater .greaterEqual
  · exact orEqual_of_not_extends (by simp) (fun d hd => hafter d hd rfl) .less .lessEqual

theorem afterDigit_whole {more after : List Char} (hmore : ∀ d ∈ more, d.isDigit)
    (hafter : ∀ d ∈ after.head?, ¬ d.isDigit)
    (hpoint : ∀ d rest, after = '.' :: d :: rest → ¬ d.isDigit) :
    afterDigit (more ++ after) = more.length := by
  simp only [afterDigit, takeWhile_run hmore hafter, List.drop_left]
  split
  · rw [if_neg (hpoint _ _ rfl)]
  · rfl

theorem afterDigit_fraction {more digits after : List Char} {d : Char}
    (hmore : ∀ e ∈ more, e.isDigit) (hd : d.isDigit) (hdigits : ∀ e ∈ digits, e.isDigit)
    (hafter : ∀ e ∈ after.head?, ¬ e.isDigit) :
    afterDigit (more ++ '.' :: d :: (digits ++ after)) = more.length + 2 + digits.length := by
  have hpoint : ∀ e ∈ ('.' :: d :: (digits ++ after)).head?, ¬ e.isDigit := by simp
  simp only [afterDigit, takeWhile_run hmore hpoint, List.drop_left, if_pos hd,
    takeWhile_run hdigits hafter]

/-- A text that fits is the lexeme, and nothing after it belongs to it. -/
theorem munch_of_fits {kind : Kind} {c : Char} {more after : List Char}
    (h : Fits kind (c :: more) after) : munch c (more ++ after) = (kind, more.length) := by
  generalize htext : c :: more = text at h
  cases h with
  | @lineComment body after hbody hafter =>
    cases htext
    have hline : ∀ d ∈ body, decide (d ≠ '\n') := fun d hd =>
      decide_eq_true (by rintro rfl; exact hbody hd)
    have hrun := takeWhile_run hline (by simpa using hafter)
    simp only [munch, if_true, List.cons_append, afterSlash, hrun, List.length_cons]
    rw [Nat.add_comm]
  | @blockComment body after hbody =>
    cases htext
    have hlength := commentLength?_append hbody after
    simp [munch, afterSlash, hlength]
    omega
  | openComment hbody =>
    cases htext
    simp [munch, afterSlash, commentLength?_eq_none hbody, Nat.add_comm]
  | whole hc hmore hafter hpoint =>
    cases htext
    rw [munch_digit hc, afterDigit_whole hmore hafter hpoint]
  | fraction hc hmore hd hdigits hafter =>
    cases htext
    have hlength := afterDigit_fraction hmore hd hdigits hafter
    rw [munch_digit hc]
    simp [hlength]
    omega
  | @string body after hbody =>
    cases htext
    simp [munch, afterQuote, quotedLength?_append hbody]
  | openString hbody =>
    cases htext
    simp [munch, afterQuote, quotedLength?_eq_none hbody]
  | keyword hc hmore hafter hkey =>
    cases htext
    simp only [munch_word hc, takeWhile_run hmore hafter, wordKind, hkey]
  | identifier hc hmore hafter hkey =>
    cases htext
    simp only [munch_word hc, takeWhile_run hmore hafter, wordKind, hkey]
  | operator hop hafter =>
    subst htext
    exact munch_operator hop fun d hd hmore => hafter c d (by rw [hmore]) hd
  | unexpected hblank hc =>
    cases htext
    exact munch_unexpected hc after

end Treewalk.Lexeme
