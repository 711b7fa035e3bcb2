import Treewalk.Text.Json
import Treewalk.Proofs.Number.RoundTrip

/-!
# Reading JSON

What a JSON text says, in the strict grammar, with numbers as the exact decimals that they are.
A string that is written is read as itself whatever follows it. Lists and objects are read if each
of their parts is.
-/

namespace Treewalk.Text.Json

/-- What a text says. An object has its members in the order of the text. -/
inductive Value where
  | null
  | bool (b : Bool)
  | number (q : ℚ)
  | string (s : String)
  | array (items : List Value)
  | object (members : List (String × Value))

/-- What is read from the front of a text, and the text after it. -/
abbrev Reader (α : Type) : Type := List Char → Option (α × List Char)

/-! ## Blanks -/

def isBlank (c : Char) : Bool := c = ' ' || c = '\t' || c = '\n' || c = '\r'

def skip (text : List Char) : List Char := text.dropWhile isBlank

/-! ## Strings -/

def hexDigit? (c : Char) : Option Nat :=
  if '0' ≤ c ∧ c ≤ '9' then some (c.toNat - '0'.toNat)
  else if 'a' ≤ c ∧ c ≤ 'f' then some (c.toNat - 'a'.toNat + 10)
  else if 'A' ≤ c ∧ c ≤ 'F' then some (c.toNat - 'A'.toNat + 10)
  else none

/-- Four hexadecimal digits. -/
def unit? : Reader Nat
  | a :: b :: c :: d :: rest => do
    let ds ← [a, b, c, d].mapM hexDigit?
    some (ds.foldl (16 * · + ·) 0, rest)
  | _ => none

/-- A character by its number. Above `ffff` it is two halves, each a unit of its own. -/
def numbered? : Reader Char := fun text => do
  let (high, rest) ← unit? text
  if high < 0xd800 ∨ 0xdfff < high then some (.ofNat high, rest)
  else if 0xdbff < high then none
  else match rest with
    | '\\' :: 'u' :: rest => do
      let (low, rest) ← unit? rest
      if low < 0xdc00 ∨ 0xdfff < low then none
      else some (.ofNat (0x10000 + 0x400 * (high - 0xd800) + (low - 0xdc00)), rest)
    | _ => none

/-- What follows a backslash. -/
def escaped? : Reader Char
  | '"' :: rest => some ('"', rest)
  | '\\' :: rest => some ('\\', rest)
  | '/' :: rest => some ('/', rest)
  | 'b' :: rest => some ('\x08', rest)
  | 'f' :: rest => some ('\x0c', rest)
  | 'n' :: rest => some ('\n', rest)
  | 'r' :: rest => some ('\r', rest)
  | 't' :: rest => some ('\t', rest)
  | 'u' :: rest => numbered? rest
  | _ => none

/-- Control characters do not stand for themselves. -/
def character? : Reader Char
  | '\\' :: rest => escaped? rest
  | c :: rest => if c.toNat < 0x20 then none else some (c, rest)
  | [] => none

/-- Characters up to the quote, of which there are at most `bound`. -/
def characters? : Nat → Reader (List Char)
  | _, '"' :: rest => some ([], rest)
  | 0, _ => none
  | bound + 1, text => do
    let (c, rest) ← character? text
    let (cs, rest) ← characters? bound rest
    some (c :: cs, rest)

def string? : Reader String
  | '"' :: rest => (characters? rest.length rest).map fun (cs, rest) => (.ofList cs, rest)
  | _ => none

/-! ## Numbers -/

def digits? : Reader (List Char) := fun text =>
  match text.takeWhile Char.isDigit with
  | [] => none
  | ds => some (ds, text.dropWhile Char.isDigit)

/-- A whole number of more than one digit does not start with zero. -/
def Canonical (whole : List Char) : Prop := whole = ['0'] ∨ whole.head? ≠ some '0'

instance (whole : List Char) : Decidable (Canonical whole) := inferInstanceAs (Decidable (_ ∨ _))

def fraction? : Reader (List Char)
  | '.' :: rest => digits? rest
  | text => some ([], text)

def power? : Reader ℤ
  | '-' :: rest => (digits? rest).map fun (ds, rest) => (-Number.digitsValue ds, rest)
  | '+' :: rest => (digits? rest).map fun (ds, rest) => (Number.digitsValue ds, rest)
  | text => (digits? text).map fun (ds, rest) => (Number.digitsValue ds, rest)

def exponent? : Reader ℤ
  | 'e' :: rest | 'E' :: rest => power? rest
  | text => some (0, text)

def unsigned? : Reader ℚ := fun text => do
  let (whole, rest) ← digits? text
  if Canonical whole then
    let (fraction, rest) ← fraction? rest
    let (exponent, rest) ← exponent? rest
    some (Number.numeralValue whole fraction * 10 ^ exponent, rest)
  else none

def number? : Reader ℚ
  | '-' :: rest => (unsigned? rest).map fun (q, rest) => (-q, rest)
  | text => unsigned? text

/-! ## Values -/

/-- One item or more, up to `close`. -/
def items? {α : Type} (close : Char) (item : Reader α) : Nat → Reader (List α)
  | 0, _ => none
  | bound + 1, text => do
    let (a, rest) ← item text
    match skip rest with
    | ',' :: rest => (items? close item bound rest).map fun (as, rest) => (a :: as, rest)
    | c :: rest => if c = close then some ([a], rest) else none
    | [] => none

/-- Any number of items, up to `close`. -/
def listing? {α : Type} (close : Char) (item : Reader α) : Reader (List α) := fun text =>
  match skip text with
  | [] => none
  | c :: rest => if c = close then some ([], rest) else items? close item text.length text

def member? {α : Type} (item : Reader α) : Reader (String × α) := fun text => do
  let (key, rest) ← string? (skip text)
  match skip rest with
  | ':' :: rest => (item rest).map fun (a, rest) => ((key, a), rest)
  | _ => none

/-- A value that is nested less than `depth` deep. -/
def value? : Nat → Reader Value
  | 0, _ => none
  | depth + 1, text =>
    match skip text with
    | 'n' :: 'u' :: 'l' :: 'l' :: rest => some (.null, rest)
    | 't' :: 'r' :: 'u' :: 'e' :: rest => some (.bool true, rest)
    | 'f' :: 'a' :: 'l' :: 's' :: 'e' :: rest => some (.bool false, rest)
    | '[' :: rest => (listing? ']' (value? depth) rest).map fun (as, rest) => (.array as, rest)
    | '\x7b' :: rest =>
      (listing? '\x7d' (member? (value? depth)) rest).map fun (ms, rest) => (.object ms, rest)
    | '"' :: rest => (string? ('"' :: rest)).map fun (s, rest) => (.string s, rest)
    | rest => (number? rest).map fun (q, rest) => (.number q, rest)

/-- The value of a text that is one value and no more. -/
def decode? (text : String) : Option Value :=
  match value? text.length text.toList with
  | some (v, rest) => if skip rest = [] then some v else none
  | none => none

example : string? "\"\\ud83d\\ude00\" ".toList = some ("😀", [' ']) := by decide +kernel

example : ∀ text ∈ ["01", "[1,]", "1 2", "\"\n\"", "\"\\ud83d\""], (decode? text).isNone := by
  decide +kernel

/-! ## What is written is read -/

/-- What follows a value inside a list or an object, and what follows a whole text. -/
def Ends (rest : List Char) : Prop := ∀ c ∈ rest.head?, c = ',' ∨ c = ']' ∨ c = '\x7d'

/-- No control characters, so all on one line. -/
def Plain (text : List Char) : Prop := ∀ c ∈ text, 0x20 ≤ c.toNat

/-- A text on one line from which `item` reads `a`. It is told from the end of a list. -/
structure Reads {α : Type} (item : Reader α) (text : List Char) (a : α) : Prop where
  plain : Plain text
  opens : ∃ c cs, text = c :: cs ∧ isBlank c = false ∧ c ≠ ']' ∧ c ≠ '\x7d'
  reads (rest : List Char) : Ends rest → item (text ++ rest) = some (a, rest)

theorem Reads.ne_nil {α : Type} {item : Reader α} {text : List Char} {a : α}
    (h : Reads item text a) : text ≠ [] := by
  obtain ⟨c, cs, rfl, -⟩ := h.opens
  exact List.cons_ne_nil c cs

theorem plain_append {text more : List Char} : Plain (text ++ more) ↔ Plain text ∧ Plain more :=
  List.forall_mem_append

theorem plain_cons {c : Char} {text : List Char} :
    Plain (c :: text) ↔ 0x20 ≤ c.toNat ∧ Plain text := List.forall_mem_cons

theorem plain_of_isDigit {text : List Char} (h : ∀ c ∈ text, c.isDigit) : Plain text := by
  intro c hc
  have hzero : 0x20 ≤ '0'.toNat := by decide
  exact Nat.le_trans hzero (Char.isDigit_iff_toNat.1 (h c hc)).1

theorem skip_cons {c : Char} (h : isBlank c = false) (rest : List Char) :
    skip (c :: rest) = c :: rest := List.dropWhile_cons_of_neg (by simp [h])

theorem skip_ends {rest : List Char} (h : Ends rest) : skip rest = rest := by
  cases rest with
  | nil => rfl
  | cons c rest => rcases h c rfl with rfl | rfl | rfl <;> rfl

/-! ### Strings -/

theorem hexDigit?_digitChar : ∀ d < 16, hexDigit? (Nat.digitChar d) = some d := by decide

theorem le_toNat_digitChar : ∀ d < 16, 0x20 ≤ (Nat.digitChar d).toNat := by decide

theorem numbered?_control {n : Nat} (h : n < 0x20) (rest : List Char) :
    numbered? ('0' :: '0' :: Nat.digitChar (n / 16) :: Nat.digitChar (n % 16) :: rest) =
      some (.ofNat n, rest) := by
  have hzero : hexDigit? '0' = some 0 := rfl
  have hhigh := hexDigit?_digitChar (n / 16) (by omega)
  have hlow := hexDigit?_digitChar (n % 16) (by omega)
  have hunit : unit? ('0' :: '0' :: Nat.digitChar (n / 16) :: Nat.digitChar (n % 16) :: rest) =
      some (n, rest) := by
    simp [unit?, hzero, hhigh, hlow, Nat.div_add_mod]
  rw [numbered?, hunit]
  simp
  omega

theorem character?_escape (c : Char) (rest : List Char) :
    character? (escape c ++ rest) = some (c, rest) := by
  unfold escape
  split
  any_goals rfl
  split
  · next hcontrol =>
    have hread := numbered?_control hcontrol rest
    rw [Char.ofNat_toNat] at hread
    exact hread
  · next hslash _ _ _ _ _ hplain =>
    rw [List.singleton_append, character?, if_neg hplain]
    exact fun h => hslash h

theorem escape_ne_quote (c : Char) : ∃ d ds, escape c = d :: ds ∧ d ≠ '"' := by
  unfold escape
  split
  any_goals exact ⟨'\\', _, rfl, by decide⟩
  split
  · exact ⟨'\\', _, rfl, by decide⟩
  · next hquote _ _ _ _ _ _ _ => exact ⟨_, _, rfl, hquote⟩

theorem plain_escape (c : Char) : Plain (escape c) := by
  unfold escape
  split
  any_goals simp [Plain]
  split
  · next h =>
    have hhigh : 0x20 ≤ (Nat.digitChar (c.toNat / 16)).toNat := le_toNat_digitChar _ (by omega)
    have hlow : 0x20 ≤ (Nat.digitChar (c.toNat % 16)).toNat := le_toNat_digitChar _ (by omega)
    simp [hhigh, hlow]
  · next h => simpa using h

theorem characters?_escape {bound : Nat} {cs : List Char} (h : cs.length ≤ bound)
    (rest : List Char) :
    characters? bound (cs.flatMap escape ++ '"' :: rest) = some (cs, rest) := by
  induction cs generalizing bound with
  | nil => cases bound <;> rfl
  | cons c cs ih =>
    obtain ⟨bound, rfl⟩ := Nat.exists_eq_add_one.2 (Nat.zero_lt_of_lt h)
    obtain ⟨d, ds, hescape, hquote⟩ := escape_ne_quote c
    have hread := character?_escape c (cs.flatMap escape ++ '"' :: rest)
    -- The string goes on here, because an escape does not start with the quote that ends it.
    rw [List.flatMap_cons, List.append_assoc, hescape] at *
    rw [List.cons_append, characters?, ← List.cons_append, hread]
    · simp [ih (Nat.le_of_succ_le_succ h)]
    · exact fun rest h => hquote (List.cons.inj h).1

theorem toList_string (s : String) :
    (string s).toList = '"' :: (s.toList.flatMap escape ++ ['"']) := by
  simp [string]

theorem length_le_escape (cs : List Char) : cs.length ≤ (cs.flatMap escape).length := by
  induction cs with
  | nil => exact Nat.le_refl 0
  | cons c cs ih =>
    obtain ⟨d, ds, hescape, -⟩ := escape_ne_quote c
    rw [List.flatMap_cons, hescape, List.length_append]
    simp only [List.length_cons]
    omega

theorem string?_string (s : String) (rest : List Char) :
    string? ((string s).toList ++ rest) = some (s, rest) := by
  have hbound := length_le_escape s.toList
  rw [toList_string, List.cons_append, List.append_assoc, List.singleton_append, string?,
    characters?_escape (by rw [List.length_append]; omega)]
  simp

theorem plain_string (s : String) : Plain (string s).toList := by
  rw [toList_string, plain_cons, plain_append]
  refine ⟨by decide, fun d hd => ?_, by simp [Plain]⟩
  obtain ⟨c, -, hc⟩ := List.mem_flatMap.1 hd
  exact plain_escape c d hc

theorem reads_string (depth : Nat) (s : String) :
    Reads (value? (depth + 1)) (string s).toList (.string s) where
  plain := plain_string s
  opens := ⟨_, _, toList_string s, by decide⟩
  reads rest _ := by
    have hread := string?_string s rest
    rw [toList_string, List.cons_append] at *
    rw [value?, skip_cons rfl]
    simp only [hread, Option.map_some]

theorem reads_null (depth : Nat) : Reads (value? (depth + 1)) "null".toList .null where
  plain := by simp [Plain]
  opens := ⟨_, _, rfl, by decide⟩
  reads _ _ := rfl

/-! ### Numbers -/

theorem digits?_append {ds tail : List Char} (hne : ds ≠ []) (hds : ∀ c ∈ ds, c.isDigit)
    (htail : ∀ c ∈ tail.head?, ¬ c.isDigit) : digits? (ds ++ tail) = some (ds, tail) := by
  have htake : tail.takeWhile Char.isDigit = [] ∧ tail.dropWhile Char.isDigit = tail := by
    cases tail with
    | nil => exact ⟨rfl, rfl⟩
    | cons c tail =>
      have hc := htail c rfl
      exact ⟨List.takeWhile_cons_of_neg hc, List.dropWhile_cons_of_neg hc⟩
  rw [digits?, List.takeWhile_append_of_pos hds, List.dropWhile_append_of_pos hds, htake.1, htake.2,
    List.append_nil]
  obtain ⟨d, ds, rfl⟩ := List.exists_cons_of_ne_nil hne
  rfl

/-- What does not go on with a numeral. -/
def Stops (tail : List Char) : Prop := ∀ c ∈ tail.head?, ¬ c.isDigit ∧ c ≠ '.'

theorem fraction?_of_stops {tail : List Char} (h : Stops tail) :
    fraction? tail = some ([], tail) := by
  unfold fraction?
  split
  · exact absurd rfl (h '.' rfl).2
  · rfl

theorem unsigned?_numeral {whole fraction tail rest : List Char} {e : ℤ} (hne : whole ≠ [])
    (hcanonical : Canonical whole) (hwhole : ∀ c ∈ whole, c.isDigit)
    (hfraction : ∀ c ∈ fraction, c.isDigit) (htail : Stops tail)
    (he : exponent? tail = some (e, rest)) :
    unsigned? (Number.numeral whole fraction ++ tail) =
      some (Number.numeralValue whole fraction * 10 ^ e, rest) := by
  have hstop : ∀ c ∈ tail.head?, ¬ c.isDigit := fun c hc => (htail c hc).1
  cases fraction with
  | nil =>
    rw [Number.numeral, unsigned?, digits?_append hne hwhole hstop]
    simp [hcanonical, fraction?_of_stops htail, he]
  | cons d ds =>
    have hpoint : ∀ c ∈ ('.' :: (d :: ds ++ tail)).head?, ¬ c.isDigit := by
      rintro c ⟨⟩
      decide
    have hdigits := digits?_append (List.cons_ne_nil d ds) hfraction hstop
    rw [Number.numeral_cons, List.append_assoc, List.cons_append, unsigned?,
      digits?_append hne hwhole hpoint]
    simp only [Option.bind_eq_bind, Option.bind_some, hcanonical, if_true, fraction?, hdigits, he]

theorem stops_of_ends {rest : List Char} (h : Ends rest) : Stops rest := by
  intro c hc
  rcases h c hc with rfl | rfl | rfl <;> decide

theorem exponent?_of_ends {rest : List Char} (h : Ends rest) : exponent? rest = some (0, rest) := by
  unfold exponent?
  split
  · exact absurd (h 'e' rfl) (by decide)
  · exact absurd (h 'E' rfl) (by decide)
  · rfl

theorem reads_number {depth : Nat} {text : List Char} {q : ℚ} (hplain : Plain text)
    (hopens : ∃ c cs, text = c :: cs ∧ c.isDigit)
    (hreads : ∀ rest, Ends rest → unsigned? (text ++ rest) = some (q, rest)) :
    Reads (value? (depth + 1)) text (.number q) := by
  obtain ⟨c, cs, rfl, hc⟩ := hopens
  have hother : ∀ d : Char, d.isDigit = false → c ≠ d := by
    rintro d hd rfl
    exact absurd hc (by simp [hd])
  have hblank : isBlank c = false := by
    simp [isBlank, hother]
  refine ⟨hplain, ⟨c, cs, rfl, hblank, hother _ rfl, hother _ rfl⟩, fun rest hrest => ?_⟩
  have hnumber : number? (c :: cs ++ rest) = some (q, rest) := by
    rw [← hreads rest hrest, List.cons_append, number?]
    exact fun _ h => hother '-' rfl (List.cons.inj h).1
  rw [value?, List.cons_append, skip_cons hblank, ← List.cons_append]
  split
  any_goals exact absurd (List.cons.inj ‹_›).1 (hother _ rfl)
  rw [hnumber, Option.map_some]

/-! ### Lists and objects -/

theorem plain_intercalate {texts : List (List Char)} (h : ∀ text ∈ texts, Plain text) :
    Plain ([','].intercalate texts) := by
  induction texts with
  | nil => exact nofun
  | cons text texts ih =>
    rw [List.forall_mem_cons] at h
    cases texts with
    | nil => simpa using h.1
    | cons _ _ =>
      rw [List.intercalate_cons_cons, List.append_assoc, List.singleton_append, plain_append,
        plain_cons]
      exact ⟨h.1, by decide, ih h.2⟩

theorem exists_reads_of_mem {α : Type} {item : Reader α} {texts : List (List Char)} {as : List α}
    (h : List.Forall₂ (Reads item) texts as) : ∀ text ∈ texts, ∃ a, Reads item text a := by
  induction h with
  | nil => exact nofun
  | cons htext _ ih => exact List.forall_mem_cons.2 ⟨⟨_, htext⟩, ih⟩

theorem plain_listing {α : Type} {item : Reader α} {texts : List (List Char)} {as : List α}
    {first last : Char} (h : List.Forall₂ (Reads item) texts as) (hfirst : 0x20 ≤ first.toNat)
    (hlast : 0x20 ≤ last.toNat) : Plain (first :: ([','].intercalate texts ++ [last])) := by
  rw [plain_cons, plain_append]
  refine ⟨hfirst, plain_intercalate fun text ht => ?_, List.forall_mem_singleton.2 hlast⟩
  obtain ⟨_, htext⟩ := exists_reads_of_mem h text ht
  exact htext.plain

theorem length_le_intercalate {texts : List (List Char)} (h : ∀ text ∈ texts, text ≠ []) :
    texts.length ≤ ([','].intercalate texts).length := by
  induction texts with
  | nil => exact Nat.le_refl 0
  | cons text texts ih =>
    rw [List.forall_mem_cons] at h
    have hpos := List.length_pos_iff.2 h.1
    have hmore := ih h.2
    cases texts with
    | nil => simpa using Nat.succ_le_of_lt hpos
    | cons _ _ =>
      rw [List.intercalate_cons_cons, List.length_append, List.length_append]
      simp only [List.length_cons] at *
      omega

section

variable {α : Type} {item : Reader α} {close : Char} (hclose : close = ']' ∨ close = '\x7d')
include hclose

theorem ends_close (rest : List Char) : Ends (close :: rest) := by
  rintro c ⟨⟩
  exact .inr hclose

theorem items?_intercalate {texts : List (List Char)} {as : List α} {bound : Nat}
    (h : List.Forall₂ (Reads item) texts as) (hne : texts ≠ []) (hbound : texts.length ≤ bound)
    (rest : List Char) :
    items? close item bound ([','].intercalate texts ++ close :: rest) = some (as, rest) := by
  induction h generalizing bound with
  | nil => exact absurd rfl hne
  | @cons text a texts as htext hmore ih =>
    obtain ⟨bound, rfl⟩ := Nat.exists_eq_add_one.2 (Nat.zero_lt_of_lt hbound)
    cases hmore with
    | nil =>
      have hread := htext.reads _ (ends_close hclose rest)
      rw [List.intercalate_singleton, items?, hread]
      rcases hclose with rfl | rfl <;> rfl
    | @cons text' _ texts _ htext' hmore =>
      have hread := htext.reads (',' :: ([','].intercalate (text' :: texts) ++ close :: rest))
        (by rintro c ⟨⟩; exact .inl rfl)
      have hrest := ih (List.cons_ne_nil _ _) (Nat.le_of_succ_le_succ hbound)
      rw [List.intercalate_cons_cons, List.append_assoc, List.append_assoc, List.singleton_append,
        items?, hread]
      have hcomma : isBlank ',' = false := rfl
      simp only [Option.bind_eq_bind, Option.bind_some, skip_cons hcomma, hrest, Option.map_some]

theorem listing?_intercalate {texts : List (List Char)} {as : List α}
    (h : List.Forall₂ (Reads item) texts as) (rest : List Char) :
    listing? close item ([','].intercalate texts ++ close :: rest) = some (as, rest) := by
  cases h with
  | nil =>
    have hskip : skip (close :: rest) = close :: rest := skip_ends (ends_close hclose rest)
    simp [listing?, hskip]
  | @cons text a texts as htext hmore =>
    have hall := List.Forall₂.cons htext hmore
    have hbound : (text :: texts).length ≤
        ([','].intercalate (text :: texts) ++ close :: rest).length := by
      rw [List.length_append]
      refine Nat.le_add_right_of_le (length_le_intercalate fun text ht => ?_)
      obtain ⟨_, htext⟩ := exists_reads_of_mem hall text ht
      exact htext.ne_nil
    have hitems := items?_intercalate hclose hall (List.cons_ne_nil _ _) hbound rest
    obtain ⟨c, cs, rfl, hblank, hlist, hobject⟩ := htext.opens
    obtain ⟨tail, htail⟩ : ∃ tail, [','].intercalate ((c :: cs) :: texts) ++ close :: rest =
        c :: tail := by
      cases texts with
      | nil => exact ⟨_, rfl⟩
      | cons _ _ => exact ⟨_, by rw [List.intercalate_cons_cons]; rfl⟩
    have hc : c ≠ close := by rcases hclose with rfl | rfl <;> assumption
    rw [htail] at hitems
    rw [htail, listing?, skip_cons hblank]
    simp only [if_neg hc, hitems]

end

theorem reads_array {depth : Nat} {texts : List (List Char)} {values : List Value}
    (h : List.Forall₂ (Reads (value? depth)) texts values) :
    Reads (value? (depth + 1)) ('[' :: ([','].intercalate texts ++ [']'])) (.array values) where
  plain := plain_listing h (by decide) (by decide)
  opens := ⟨_, _, rfl, by decide⟩
  reads rest _ := by
    have hlisting := listing?_intercalate (.inl rfl) h rest
    rw [List.cons_append, List.append_assoc, List.singleton_append, value?, skip_cons rfl]
    simp only [hlisting, Option.map_some]

theorem reads_member {α : Type} {item : Reader α} {text : String} {a : α} (key : String)
    (h : Reads item text.toList a) :
    Reads (member? item) (string key ++ ":" ++ text).toList (key, a) where
  plain := by
    rw [String.toList_append, String.toList_append, plain_append, plain_append]
    exact ⟨⟨plain_string key, by simp [Plain]⟩, h.plain⟩
  opens := ⟨_, _, by rw [String.toList_append, String.toList_append, toList_string]; rfl, by decide⟩
  reads rest hrest := by
    have hkey := string?_string key (':' :: (text.toList ++ rest))
    have hskip : skip ((string key).toList ++ ':' :: (text.toList ++ rest)) =
        (string key).toList ++ ':' :: (text.toList ++ rest) := by
      rw [toList_string, List.cons_append, skip_cons rfl]
    rw [String.toList_append, String.toList_append, List.append_assoc, List.append_assoc]
    change member? item ((string key).toList ++ ':' :: (text.toList ++ rest)) = _
    rw [member?, hskip, hkey]
    have hcolon : isBlank ':' = false := rfl
    simp only [Option.bind_eq_bind, Option.bind_some, skip_cons hcolon, h.reads rest hrest,
      Option.map_some]

theorem toList_object (fields : List (String × String)) :
    (object fields).toList = '\x7b' :: ([','].intercalate
      (fields.map fun (key, text) => (string key ++ ":" ++ text).toList) ++ ['\x7d']) := by
  simp [object, Function.comp_def]

theorem length_le_object (fields : List (String × String)) :
    fields.length ≤ (object fields).length := by
  have hne : ∀ text ∈ fields.map fun (key, text) => (string key ++ ":" ++ text).toList,
      text ≠ [] := by
    rw [List.forall_mem_map]
    simp [toList_string]
  have hitems := length_le_intercalate hne
  rw [List.length_map] at hitems
  rw [← String.length_toList, toList_object, List.length_cons, List.length_append]
  omega

theorem reads_object {depth : Nat} {fields : List (String × String)}
    {members : List (String × Value)} (h : List.Forall₂
      (fun field m => field.1 = m.1 ∧ Reads (value? depth) field.2.toList m.2) fields members) :
    Reads (value? (depth + 1)) (object fields).toList (.object members) := by
  have hmembers : List.Forall₂ (Reads (member? (value? depth)))
      (fields.map fun (key, text) => (string key ++ ":" ++ text).toList) members := by
    rw [List.forall₂_map_left_iff]
    refine h.imp ?_
    rintro ⟨key, text⟩ ⟨_, v⟩ ⟨rfl, hv⟩
    exact reads_member key hv
  rw [toList_object]
  refine ⟨plain_listing hmembers (by decide) (by decide), ⟨_, _, rfl, by decide⟩, fun rest _ => ?_⟩
  have hlisting := listing?_intercalate (.inr rfl) hmembers rest
  rw [List.cons_append, List.append_assoc, List.singleton_append, value?, skip_cons rfl]
  simp only [hlisting, Option.map_some]

/-! ### Whole texts -/

theorem decode?_of_reads {text : String} {v : Value} {levels : Nat} (hlevels : levels ≤ text.length)
    (h : ∀ depth, Reads (value? (depth + levels)) text.toList v) : decode? text = some v := by
  have hread := (h (text.length - levels)).reads [] nofun
  rw [Nat.sub_add_cancel hlevels, List.append_nil] at hread
  rw [decode?, hread]
  rfl

end Treewalk.Text.Json
