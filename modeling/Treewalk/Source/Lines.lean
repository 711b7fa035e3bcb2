/-!
# Lines and columns

A source is a list of characters. Offsets into it count bytes, lines and columns count from 1,
and a column counts characters.
-/

namespace Treewalk.Source

/-- Bytes that the characters take up. -/
def byteLength (text : List Char) : Nat := text.foldl (fun n c => n + c.utf8Size) 0

@[simp] theorem byteLength_nil : byteLength [] = 0 := rfl

@[simp] theorem byteLength_append (s t : List Char) :
    byteLength (s ++ t) = byteLength s + byteLength t := by
  have h : ∀ (t : List Char) n, t.foldl (fun n c => n + c.utf8Size) n = n + byteLength t := by
    intro t
    unfold byteLength
    induction t with
    | nil => simp
    | cons c t ih => intro n; rw [List.foldl_cons, List.foldl_cons, ih, ih (0 + _)]; omega
  rw [byteLength, List.foldl_append, h]
  rfl

@[simp] theorem byteLength_cons (c : Char) (text : List Char) :
    byteLength (c :: text) = c.utf8Size + byteLength text := by
  rw [← List.singleton_append, byteLength_append]
  simp [byteLength]

/-- What is left after the first `n` bytes, or `none` if they end inside a character or past
the end. -/
def dropBytes? : Nat → List Char → Option (List Char)
  | 0, text => some text
  | _ + 1, [] => none
  | n + 1, c :: text =>
    if c.utf8Size ≤ n + 1 then dropBytes? (n + 1 - c.utf8Size) text else none

theorem dropBytes?_append_add (s t : List Char) (n : Nat) :
    dropBytes? (byteLength s + n) (s ++ t) = dropBytes? n t := by
  induction s with
  | nil => rw [byteLength_nil, Nat.zero_add, List.nil_append]
  | cons c s ih =>
    have hc : 0 < c.utf8Size := c.utf8Size_pos
    obtain ⟨m, hm⟩ : ∃ m, c.utf8Size + byteLength s + n = m + 1 :=
      ⟨_, (Nat.sub_add_cancel (by omega)).symm⟩
    have hrest : m + 1 - c.utf8Size = byteLength s + n := by omega
    rw [byteLength_cons, List.cons_append, hm, dropBytes?, if_pos (by omega), hrest]
    exact ih

theorem dropBytes?_append (s t : List Char) : dropBytes? (byteLength s) (s ++ t) = some t := by
  rw [← Nat.add_zero (byteLength s), dropBytes?_append_add]
  cases t <;> rfl

/-- How many characters the first `n` bytes are, or `none` as in `dropBytes?`. -/
def charsIn? (n : Nat) (text : List Char) : Option Nat :=
  (dropBytes? n text).map fun rest => text.length - rest.length

/-! ## The line table -/

/-- Where each line starts. -/
structure LineTable where
  starts : List Nat
deriving Repr

/-- The line starts after each newline, for a text that begins at `offset`. -/
def startsFrom (offset : Nat) : List Char → List Nat
  | [] => []
  | c :: text =>
    let next := offset + c.utf8Size
    if c = '\n' then next :: startsFrom next text else startsFrom next text

structure Position where
  line : Nat
  column : Nat
deriving DecidableEq, Repr

namespace LineTable

def ofText (text : List Char) : LineTable := ⟨0 :: startsFrom 0 text⟩

/-- The line that `offset` is on. Everything past the end is on the last line. -/
def line (table : LineTable) (offset : Nat) : Nat := table.starts.countP (· ≤ offset)

def start? (table : LineTable) : Nat → Option Nat
  | 0 => none
  | line + 1 => table.starts[line]?

/-- Line and column of an offset. Past the end counts as the end, and inside a character there
is no column but 1. -/
def position (table : LineTable) (text : List Char) (offset : Nat) : Position :=
  let offset := min offset (byteLength text)
  let line := table.line offset
  let start := (table.start? line).getD 0
  let before := do charsIn? (offset - start) (← dropBytes? start text)
  ⟨line, before.getD 0 + 1⟩

end LineTable

end Treewalk.Source
