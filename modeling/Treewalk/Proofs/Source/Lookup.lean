import Treewalk.Proofs.Lexeme.Blanking
import Treewalk.Proofs.Source.Columns

/-!
# Looking up lines and columns

The line table is in order, so a search in it by halves finds the line of a byte. The line is one
more than the newlines among the bytes before, and between characters the column counts the
characters from the start of the line. So places between characters are told apart by their
positions, and are in the order of these.
-/

namespace Treewalk.Source

/-! ## The table is in order -/

theorem pairwise_startsFrom (offset : Nat) (text : List Char) :
    (startsFrom offset text).Pairwise (· < ·) := by
  induction text generalizing offset with
  | nil => exact .nil
  | cons c text ih =>
    rw [startsFrom]
    split
    · exact List.pairwise_cons.2 ⟨fun _ => lt_of_mem_startsFrom, ih _⟩
    · exact ih _

theorem pairwise_starts (text : List Char) : (LineTable.ofText text).starts.Pairwise (· < ·) :=
  List.pairwise_cons.2 ⟨fun _ => lt_of_mem_startsFrom, pairwise_startsFrom 0 text⟩

theorem le_iff_lt_countP {xs : List Nat} (h : xs.Pairwise (· < ·)) (bound : Nat) {i x : Nat}
    (hx : xs[i]? = some x) : x ≤ bound ↔ i < xs.countP (· ≤ bound) := by
  induction xs generalizing i with
  | nil => simp at hx
  | cons y xs ih =>
    obtain ⟨hfirst, hxs⟩ := List.pairwise_cons.1 h
    by_cases hy : y ≤ bound
    · rw [List.countP_cons_of_pos (by simpa using hy)]
      cases i with
      | zero =>
        obtain rfl : y = x := by simpa using hx
        exact iff_of_true hy (Nat.succ_pos _)
      | succ i => rw [ih hxs hx, Nat.add_lt_add_iff_right]
    · have hall : ∀ z ∈ y :: xs, ¬ z ≤ bound := by
        refine List.forall_mem_cons.2 ⟨hy, fun z hz => ?_⟩
        have := hfirst z hz
        omega
      rw [List.countP_eq_zero.2 (by simpa using hall)]
      exact iff_of_false (hall x (List.mem_of_getElem? hx)) (Nat.not_lt_zero i)

variable (text : List Char)

theorem start_le_iff (offset : Nat) {i start : Nat}
    (h : (LineTable.ofText text).starts[i]? = some start) :
    start ≤ offset ↔ i < (LineTable.ofText text).line offset :=
  le_iff_lt_countP (pairwise_starts text) offset h

theorem exists_start (offset : Nat) : ∃ start,
    (LineTable.ofText text).start? ((LineTable.ofText text).line offset) = some start ∧
      start ≤ offset ∧
      ∀ next, (LineTable.ofText text).start? ((LineTable.ofText text).line offset + 1) = some next →
        offset < next := by
  obtain ⟨line, hline⟩ : ∃ line, (LineTable.ofText text).line offset = line + 1 :=
    ⟨_, (line_ofText text offset).trans (Nat.add_comm 1 _)⟩
  have hlt : line < (LineTable.ofText text).starts.length := by
    have hle : (LineTable.ofText text).line offset ≤ _ := List.countP_le_length
    omega
  refine ⟨_, by rw [hline, LineTable.start?, List.getElem?_eq_getElem hlt], ?_, fun next hnext => ?_⟩
  · rw [start_le_iff text offset (List.getElem?_eq_getElem hlt), hline]
    exact Nat.lt_succ_self line
  · exact Nat.lt_of_not_le fun hle => Nat.lt_irrefl _ ((start_le_iff text offset hnext).1 hle)

theorem start?_eq_none_iff (line : Nat) :
    (LineTable.ofText text).start? line = none ↔ line = 0 ∨ 1 + text.count '\n' < line := by
  cases line with
  | zero => simp [LineTable.start?]
  | succ line =>
    rw [LineTable.start?, List.getElem?_eq_none_iff, length_starts]
    omega

/-! ## Newlines by bytes -/

theorem count_utf8EncodeChar {c : Char} (h : c ≠ '\n') : (String.utf8EncodeChar c).count 10 = 0 :=
  List.count_eq_zero.2 fun hmem => h (eq_newline_of_mem hmem)

theorem count_take_bytes (p : Nat) (text : List Char) :
    ((bytes text).take p).count 10 = newlinesBefore p text := by
  induction text generalizing p with
  | nil => simp [bytes]
  | cons c text ih =>
    cases p with
    | zero => simp
    | succ p =>
      have hbytes : bytes (c :: text) = String.utf8EncodeChar c ++ bytes text := rfl
      rw [hbytes, List.take_append, List.count_append, String.length_utf8EncodeChar, ih,
        newlinesBefore]
      congr 1
      split
      · next hc =>
        have hten : String.utf8EncodeChar '\n' = [10] := by decide
        rw [hc, hten]
        simp
      · next hc =>
        have hnone := count_utf8EncodeChar hc
        exact List.count_eq_zero.2 fun hmem =>
          List.count_eq_zero.1 hnone (List.mem_of_mem_take hmem)

theorem count_bytes : (bytes text).count 10 = text.count '\n' := by
  have hall := count_take_bytes (byteLength text) text
  rw [← length_bytes, List.take_length, length_bytes] at hall
  have hnewlines := newlinesBefore_byteLength text []
  rw [List.append_nil] at hnewlines
  exact hall.trans hnewlines

/-! ## Columns -/

/-- The offset that is `n` characters after `offset`, if there are as many. -/
def advance? (text : List Char) (offset n : Nat) : Option Nat := do
  let rest ← dropBytes? offset text
  if n ≤ rest.length then some (offset + byteLength (rest.take n)) else none

variable {text}

theorem advance?_position {before rest : List Char} (h : text = before ++ rest) : ∃ start,
    (LineTable.ofText text).start? (Position.after before).line = some start ∧
      advance? text start ((Position.after before).column - 1) = some (byteLength before) := by
  subst h
  obtain ⟨head, more, tail, hline, hbefore, -⟩ := exists_isLine before rest
  refine ⟨_, hline.start?_eq, ?_⟩
  have hdrop : dropBytes? (byteLength head) (before ++ rest) = some (lastLine before ++ rest) := by
    conv_lhs => rw [hbefore, List.append_assoc]
    exact dropBytes?_append _ _
  have hsize := congrArg byteLength hbefore
  rw [byteLength_append] at hsize
  rw [advance?, hdrop, Position.after, Nat.add_sub_cancel]
  simp [← hsize]

theorem exists_split_of_isValid {source : String} {offset : Nat}
    (h : String.Pos.Raw.IsValid source ⟨offset⟩) :
    ∃ before rest, source.toList = before ++ rest ∧ offset = byteLength before := by
  obtain ⟨before, rest, rfl, hoffset⟩ := String.Pos.Raw.isValid_iff_exists_append.1 h
  refine ⟨before.toList, rest.toList, String.toList_append, ?_⟩
  rw [byteLength_toList]
  exact congrArg String.Pos.Raw.byteIdx hoffset

/-- What is looked up in the table is what the bytes of the source say. -/
structure LineTable.Exact (table : LineTable) (source : String) : Prop where
  /-- One more than the newlines before the byte, also past the end. -/
  line_eq (offset : Nat) :
    table.line offset = 1 + (source.toByteArray.data.toList.take offset).count 10
  /-- The starts up to a byte are at the front. -/
  start_le_iff (offset : Nat) {i start : Nat} : table.starts[i]? = some start →
    (start ≤ offset ↔ i < table.line offset)
  /-- The last start up to a byte is that of its line. -/
  between_starts (offset : Nat) : ∃ start, table.start? (table.line offset) = some start ∧
    start ≤ offset ∧ ∀ next, table.start? (table.line offset + 1) = some next → offset < next
  /-- Every line has a start, and nothing else has. -/
  start_eq_none_iff (line : Nat) : table.start? line = none ↔
    line = 0 ∨ 1 + source.toByteArray.data.toList.count 10 < line
  /-- Between characters, a place is found again by going as many characters from the start of its
  line as its column says. -/
  advance_position (offset : Nat) : String.Pos.Raw.IsValid source ⟨offset⟩ →
    (table.position source.toList offset).line = table.line offset ∧
      1 ≤ (table.position source.toList offset).column ∧
      ∃ start, table.start? (table.position source.toList offset).line = some start ∧
        advance? source.toList start ((table.position source.toList offset).column - 1) =
          some offset
  /-- Positions are in the order of the bytes. -/
  precedes_iff (a b : Nat) : String.Pos.Raw.IsValid source ⟨a⟩ → String.Pos.Raw.IsValid source ⟨b⟩ →
    ((table.position source.toList a).Precedes (table.position source.toList b) ↔ a < b) ∧
      (table.position source.toList a = table.position source.toList b ↔ a = b)

/-- Lines and columns are exact, for every source and every byte. -/
theorem lookup_exact (source : String) : (LineTable.ofText source.toList).Exact source := by
  have hbytes : source.toByteArray.data.toList = bytes source.toList := by
    rw [← toList_data_ofList, String.ofList_toList]
  constructor
  case line_eq =>
    intro offset
    rw [hbytes, count_take_bytes]
    exact line_ofText _ offset
  case start_le_iff =>
    intro offset i start
    exact start_le_iff _ offset
  case between_starts => exact exists_start _
  case start_eq_none_iff =>
    intro line
    rw [hbytes, count_bytes]
    exact start?_eq_none_iff _ line
  case advance_position =>
    intro offset hvalid
    obtain ⟨before, rest, hsplit, rfl⟩ := exists_split_of_isValid hvalid
    have hline : (LineTable.ofText source.toList).line (byteLength before) =
        (Position.after before).line := by
      rw [line_ofText, hsplit, newlinesBefore_byteLength, Nat.add_comm]
      rfl
    rw [position_after hsplit, hline]
    exact ⟨rfl, Nat.succ_pos _, advance?_position hsplit⟩
  case precedes_iff =>
    intro a b ha hb
    obtain ⟨before, rest, hsplit, rfl⟩ := exists_split_of_isValid ha
    obtain ⟨front, back, hother, rfl⟩ := exists_split_of_isValid hb
    have hforward := Position.precedes_iff (hsplit.symm.trans hother)
    have hback := Position.precedes_iff (hother.symm.trans hsplit)
    rw [position_after hsplit, position_after hother]
    refine ⟨hforward, fun hsame => ?_, fun hsame => ?_⟩
    · have hirrefl : ¬ (Position.after front).Precedes (.after front) := fun h => h.asymm h
      rw [hsame] at hforward hback
      have := mt hforward.2 hirrefl
      have := mt hback.2 hirrefl
      omega
    · rw [← position_after hsplit, ← position_after hother, hsame]

theorem lookup_exact_second_line :
    let source := "a\né"
    let position := (LineTable.ofText source.toList).position source.toList
    String.Pos.Raw.IsValid source ⟨2⟩ ∧ String.Pos.Raw.IsValid source ⟨4⟩ ∧
      (position 2).Precedes (position 4) ∧ (position 4).line = 2 ∧
      advance? source.toList 2 ((position 4).column - 1) = some 4 := by
  intro source position
  have htwo : String.Pos.Raw.IsValid source ⟨2⟩ :=
    String.Pos.Raw.isValid_iff_exists_append.2 ⟨"a\n", "é", by decide, by decide⟩
  have hfour : String.Pos.Raw.IsValid source ⟨4⟩ :=
    String.Pos.Raw.isValid_iff_exists_append.2 ⟨"a\né", "", by decide, by decide⟩
  have hexact := lookup_exact source
  obtain ⟨hline, -, start, hstart, hadvance⟩ := hexact.advance_position 4 hfour
  have htable : (LineTable.ofText source.toList).line 4 = 2 := by decide
  rw [htable] at hline
  rw [hline] at hstart
  cases hstart.symm.trans (by decide : (LineTable.ofText source.toList).start? 2 = some 2)
  exact ⟨htwo, hfour, (hexact.precedes_iff 2 4 htwo hfour).1.2 (by decide), hline, hadvance⟩

end Treewalk.Source
