/-!
# How alike two words are

The Jaro similarity: letters of two words match if they are equal and not far apart, and the more
letters match, and the more of them in the same order, the more alike the words are.
-/

namespace Treewalk.Text

/-- How far apart matching letters may be. -/
def reach (a b : List Char) : Nat := max a.length b.length / 2 - 1

/-- The first free position of `b` within reach of `i` that has the letter `c`. -/
def matchFor? (reach : Nat) (b : List (Nat × Char)) (taken : List Nat) (i : Nat) (c : Char) :
    Option Nat :=
  let inReach := fun j => i ≤ j + reach && j ≤ i + reach
  (b.find? fun (j, d) => inReach j && c = d && !taken.contains j).map Prod.fst

/-- Letters of a word with their positions. -/
def positions (word : List Char) : List (Nat × Char) := (List.range word.length).zip word

/-- The letters of `a` that match, in order, and the positions in `b` that they match. -/
def matching (a b : List Char) : List Char × List Nat :=
  let step := fun (letters, taken) ((i, c) : Nat × Char) =>
    match matchFor? (reach a b) (positions b) taken i c with
    | some j => (letters ++ [c], j :: taken)
    | none => (letters, taken)
  (positions a).foldl step ([], [])

/-- The mean of three shares: of the letters of `a` that match, of those of `b`, and of the matching
letters that are in order. It is a double and rounded like one, so a mean of exactly 7/10 comes
out just above the double `0.7`. -/
def similarity (a b : List Char) : Float :=
  let (letters, taken) := matching a b
  let others := ((positions b).filter fun (j, _) => taken.contains j).map Prod.snd
  let outOfOrder := ((letters.zip others).countP fun (c, d) => c ≠ d) / 2
  let m := letters.length
  let share (part whole : Nat) : Float := part.toFloat / whole.toFloat
  if m = 0 then 0
  else (share m a.length + share m b.length + share (m - outOfOrder) m) / 3

/-- Alike enough to be taken for one another. -/
def alike (a b : List Char) : Bool := similarity a b > 0.7

end Treewalk.Text
