import Treewalk.Proofs.Diagnostic.ShownLines

/-!
# Diagnostics in colour

Colours are escape sequences put around parts of the text. Without them the text is the plain one,
but for blanks in front of line numbers: the number is padded with its colours on, and they fill the
margin. So the two texts are the same just where no line is shown.
-/

namespace Treewalk

/-! ## Escape sequences -/

/-- The last character of an escape sequence. -/
def endsSequence (c : Char) : Bool := '@' ≤ c && c ≤ '~'

/-- A sequence starts with ESC and `[`. The flag says whether the text starts inside one. -/
def deleteFrom : Bool → List Char → List Char
  | _, [] => []
  | true, c :: rest => deleteFrom (!endsSequence c) rest
  | false, '\x1b' :: '[' :: rest => deleteFrom true rest
  | false, c :: rest => c :: deleteFrom false rest

/-- A text without its escape sequences. -/
def deleteEscapes (s : String) : String := .ofList (deleteFrom false s.toList)

/-- Without the character that starts an escape sequence. -/
def EscapeFree (s : List Char) : Prop := '\x1b' ∉ s

instance (s : List Char) : Decidable (EscapeFree s) := inferInstanceAs (Decidable ('\x1b' ∉ s))

theorem deleteFrom_cons {c : Char} (h : c ≠ '\x1b') (rest : List Char) :
    deleteFrom false (c :: rest) = c :: deleteFrom false rest := by
  rw [deleteFrom]
  exact fun _ hc _ => h hc

theorem deleteFrom_append {s : List Char} (h : EscapeFree s) (rest : List Char) :
    deleteFrom false (s ++ rest) = s ++ deleteFrom false rest := by
  induction s with
  | nil => rfl
  | cons c s ih =>
    obtain ⟨hc, hs⟩ := not_or.1 (mt List.mem_cons.2 h)
    rw [List.cons_append, deleteFrom_cons (Ne.symm hc), ih hs, List.cons_append]

theorem deleteFrom_code {code : List Char} (h : code.all (!endsSequence ·)) {c : Char}
    (hc : endsSequence c) (rest : List Char) :
    deleteFrom true (code ++ c :: rest) = deleteFrom false rest := by
  induction code with
  | nil => rw [List.nil_append, deleteFrom, hc]; rfl
  | cons d code ih =>
    rw [List.all_cons, Bool.and_eq_true] at h
    rw [List.cons_append, deleteFrom, h.1]
    exact ih h.2

/-- Wherever the coloured text stands, its escape sequences can be deleted by themselves. -/
def Strips (colored short : String) : Prop :=
  ∀ rest, deleteFrom false (colored.toList ++ rest) = short.toList ++ deleteFrom false rest

theorem Strips.deleteEscapes_eq {colored short : String} (h : Strips colored short) :
    deleteEscapes colored = short := by
  have hall := h []
  rw [List.append_nil, deleteFrom, List.append_nil] at hall
  rw [deleteEscapes, hall, String.ofList_toList]

theorem strips_self {s : String} (h : EscapeFree s.toList) : Strips s s := deleteFrom_append h

theorem Strips.append {a b c d : String} (h : Strips a b) (h' : Strips c d) :
    Strips (a ++ c) (b ++ d) := by
  intro rest
  rw [String.toList_append, List.append_assoc, h, h', ← List.append_assoc, ← String.toList_append]

/-! ## Blanks in front of numbers -/

/-- `Outdents k s t`: `t` is `s` without `k` of the blanks that pad its line numbers. -/
inductive Outdents : Nat → String → String → Prop
  | same {s} : Outdents 0 s s
  | number {width line : Nat} : Outdents (min 9 (width - (toString line).length))
    (padLeft width (toString line)) (padLeft (width - 9) (toString line))
  | append {j k a b c d} : Outdents j a b → Outdents k c d → Outdents (j + k) (a ++ c) (b ++ d)

theorem length_blanks (n : Nat) : (blanks n).length = n := by simp [blanks]

theorem length_padLeft (width : Nat) (s : String) :
    (padLeft width s).length = width - s.length + s.length := by
  rw [padLeft, String.length_append, length_blanks]

theorem Outdents.length {k : Nat} {s t : String} (h : Outdents k s t) :
    t.length + k = s.length := by
  induction h with
  | same => rfl
  | number => rw [length_padLeft, length_padLeft]; omega
  | append _ _ ih ih' => rw [String.length_append, String.length_append]; omega

theorem Outdents.eq_of_zero {s t : String} (h : Outdents 0 s t) : t = s := by
  generalize hk : 0 = k at h
  induction h with
  | same => rfl
  | @number width line =>
    have hwidth : width - (toString line).length = 0 := by omega
    have hwidth' : width - 9 - (toString line).length = 0 := by omega
    rw [padLeft, padLeft, hwidth, hwidth']
  | append _ _ ih ih' => rw [ih (by omega), ih' (by omega)]

theorem Outdents.eq_iff {k : Nat} {s t : String} (h : Outdents k s t) : t = s ↔ k = 0 := by
  constructor
  · rintro rfl
    have hlength := h.length
    omega
  · rintro rfl
    exact h.eq_of_zero

/-- How a text looks in colour. No blank is lost just if `kept` holds. -/
def ColoredAs (kept : Prop) (plain colored : String) : Prop :=
  ∃ k short, Strips colored short ∧ Outdents k plain short ∧ (k = 0 ↔ kept)

namespace ColoredAs

theorem of_strips {plain colored : String} (h : Strips colored plain) :
    ColoredAs True plain colored :=
  ⟨0, plain, h, .same, by simp⟩

theorem self {s : String} (h : EscapeFree s.toList) : ColoredAs True s s :=
  of_strips (strips_self h)

theorem append {p q : Prop} {a b c d : String} (h : ColoredAs p a b) (h' : ColoredAs q c d) :
    ColoredAs (p ∧ q) (a ++ c) (b ++ d) := by
  obtain ⟨j, short, hstrips, houtdents, hj⟩ := h
  obtain ⟨k, short', hstrips', houtdents', hk⟩ := h'
  refine ⟨j + k, short ++ short', hstrips.append hstrips', houtdents.append houtdents', ?_⟩
  rw [← hj, ← hk]
  omega

theorem congr {p q : Prop} (hpq : p ↔ q) {a b : String} (h : ColoredAs p a b) :
    ColoredAs q a b := by
  rwa [propext hpq] at h

theorem append_kept {p : Prop} {a b c d : String} (h : ColoredAs p a b) (h' : ColoredAs True c d) :
    ColoredAs p (a ++ c) (b ++ d) :=
  (h.append h').congr (Iff.of_eq (and_true p))

theorem join {α : Type} {p : α → Prop} {f g : α → String} {l : List α}
    (h : ∀ a ∈ l, ColoredAs (p a) (f a) (g a)) :
    ColoredAs (∀ a ∈ l, p a) (String.join (l.map f)) (String.join (l.map g)) := by
  induction l with
  | nil => exact (self (s := "") nofun).congr (by simp)
  | cons a l ih =>
    obtain ⟨ha, hl⟩ := List.forall_mem_cons.1 h
    rw [List.map_cons, List.map_cons, String.join_cons, String.join_cons]
    exact (ha.append (ih hl)).congr List.forall_mem_cons.symm

end ColoredAs

/-! ## Texts without ESC -/

theorem escapeFree_append {s t : String} (hs : EscapeFree s.toList) (ht : EscapeFree t.toList) :
    EscapeFree (s ++ t).toList := by
  rw [EscapeFree, String.toList_append, List.mem_append, not_or]
  exact ⟨hs, ht⟩

theorem escapeFree_number (n : Nat) : EscapeFree (toString n).toList := by
  intro h
  rw [Nat.toString_eq_repr, Nat.toList_repr] at h
  have hdigit := Nat.isDigit_of_mem_toDigits (by decide) (by decide) h
  exact absurd hdigit (by decide)

theorem escapeFree_blanks (n : Nat) : EscapeFree (blanks n).toList := by
  simp [EscapeFree, blanks]

theorem escapeFree_carets (column : Nat) (marks : List Underline) :
    EscapeFree (String.ofList (Underline.carets column marks)).toList := by
  rw [String.toList_ofList]
  induction marks generalizing column with
  | nil => exact nofun
  | cons mark marks ih =>
    simp only [EscapeFree, Underline.carets, List.mem_append, List.mem_replicate, not_or]
    exact ⟨⟨by simp, by simp⟩, ih _⟩

open Source in
theorem suffix_of_dropBytes? {n : Nat} {text rest : List Char}
    (h : dropBytes? n text = some rest) : rest <:+ text := by
  fun_induction dropBytes? n text with
  | case1 text => cases h; exact List.suffix_rfl
  | case2 => cases h
  | case3 n c text _ ih => exact (ih h).trans (List.suffix_cons c text)
  | case4 => cases h

/-- No part of the diagnostic has an ESC. -/
structure Diagnostic.EscapeFree (d : Diagnostic) : Prop where
  code : ∀ code, d.code = some code → Treewalk.EscapeFree code.toList
  message : Treewalk.EscapeFree d.message.toList
  labels : ∀ label ∈ d.labels, Treewalk.EscapeFree label.message.toList
  notes : ∀ note ∈ d.notes, Treewalk.EscapeFree note.toList

/-! ## Rows in colour -/

namespace View

theorem lineText?_subset {v : View} {line : Nat} {shown : List Char}
    (h : v.lineText? line = some shown) : shown ⊆ v.text := by
  obtain ⟨start, -, h⟩ := Option.bind_eq_some_iff.1 h
  obtain ⟨rest, hdrop, h⟩ := Option.bind_eq_some_iff.1 h
  intro c hc
  rw [← Option.some.inj h] at hc
  have hc := (List.dropWhile_sublist _).subset (List.mem_reverse.1 hc)
  have hc := (List.takeWhile_sublist _).subset (List.mem_reverse.1 hc)
  exact (suffix_of_dropBytes? hdrop).subset hc

theorem exists_label_of_mem_underlines {v : View} {labels : List Label} {line : Nat}
    {mark : Underline} (h : mark ∈ v.underlines labels line) :
    ∃ label ∈ labels, label.message = mark.message := by
  obtain ⟨label, hlabel, -, rfl⟩ := mem_underlines.1 h
  exact ⟨label, hlabel, rfl⟩

theorem unlines_append (rows rows' : List String) :
    unlines (rows ++ rows') = unlines rows ++ unlines rows' := by
  rw [unlines, List.map_append, String.join_append]
  rfl

theorem unlines_flatMap {α : Type} (f : α → List String) (l : List α) :
    unlines (l.flatMap f) = String.join (l.map fun a => unlines (f a)) := by
  induction l with
  | nil => rfl
  | cons a l ih =>
    rw [List.flatMap_cons, unlines_append, ih, List.map_cons, String.join_cons]

theorem coloredAs_unlines {α : Type} {f g : α → String} {l : List α}
    (h : ∀ a ∈ l, ColoredAs True (f a) (g a)) :
    ColoredAs True (unlines (l.map f)) (unlines (l.map g)) := by
  rw [unlines, unlines, List.map_map, List.map_map]
  have hjoin := ColoredAs.join fun a ha => (h a ha).append_kept (.self (s := "\n") (by decide))
  exact hjoin.congr (by simp)

theorem coloredAs_unlines_cons {p q : Prop} {row row' : String} {rows rows' : List String}
    (h : ColoredAs p row row') (hrows : ColoredAs q (unlines rows) (unlines rows')) :
    ColoredAs (p ∧ q) (unlines (row :: rows)) (unlines (row' :: rows')) := by
  rw [unlines, unlines, List.map_cons, List.map_cons, String.join_cons, String.join_cons]
  exact (h.append_kept (.self (s := "\n") (by decide))).append hrows

section

variable (text : List Char) (file : String)

theorem strips_paint (code s : String) (hcode : code.toList.all (!endsSequence ·))
    (hs : EscapeFree s.toList) : Strips ((inColor true text file).paint code s) s := by
  intro rest
  have htext : ((inColor true text file).paint code s).toList ++ rest = '\x1b' :: '[' ::
      (code.toList ++ 'm' :: (s.toList ++ '\x1b' :: '[' :: (['0'] ++ 'm' :: rest))) := by
    simp [paint, inColor]
  rw [htext, deleteFrom, deleteFrom_code hcode rfl, deleteFrom_append hs, deleteFrom,
    deleteFrom_code (by decide) rfl]

theorem coloredAs_paint (code s : String) (hcode : code.toList.all (!endsSequence ·))
    (hs : EscapeFree s.toList) :
    ColoredAs True ((inColor false text file).paint code s)
      ((inColor true text file).paint code s) :=
  .of_strips (strips_paint text file code s hcode hs)

theorem coloredAs_marginRow (width : Nat) {content content' : String}
    (h : ColoredAs True content content') :
    ColoredAs True ((inColor false text file).marginRow width content)
      ((inColor true text file).marginRow width content') := by
  have hblanks := ColoredAs.self
    (escapeFree_append (escapeFree_blanks width) (t := " ") (by decide))
  have hbar := coloredAs_paint text file "34" "|" (by decide) (by decide)
  exact (hblanks.append_kept hbar).append_kept h

/-- The colours around a number count as columns, so that it gets nine blanks less. -/
theorem coloredAs_number (width line : Nat) :
    ColoredAs (width ≤ (toString line).length)
      (padLeft width ((inColor false text file).blue (toString line)))
      (padLeft width ((inColor true text file).blue (toString line))) := by
  refine ⟨_, _, ?_, .number, by omega⟩
  have hlength : ((inColor true text file).blue (toString line)).length =
      (toString line).length + 9 := by
    have hcodes : "\x1b[34m".length = 5 ∧ "\x1b[0m".length = 4 := by decide
    simp [blue, paint, inColor, String.length_append, hcodes]
    omega
  have hpad : width - ((toString line).length + 9) = width - 9 - (toString line).length := by omega
  rw [padLeft, hlength, hpad]
  exact (strips_self (escapeFree_blanks _)).append
    (strips_paint text file "34" _ (by decide) (escapeFree_number line))

theorem coloredAs_headerRow {d : Diagnostic} (hd : d.EscapeFree) :
    ColoredAs True ((inColor false text file).headerRow d)
      ((inColor true text file).headerRow d) := by
  have herror := coloredAs_paint text file "1;31" "error" (by decide) (by decide)
  have hcolon : ColoredAs True ": " ": " := .self (by decide)
  have hmessage := coloredAs_paint text file "1" d.message (by decide) hd.message
  unfold headerRow
  cases hcode : d.code with
  | none =>
    have hnone : ColoredAs True "" "" := .self (by decide)
    exact ((herror.append_kept hnone).append_kept hcolon).append_kept hmessage
  | some code =>
    have hbrackets : EscapeFree ("[" ++ code ++ "]").toList :=
      escapeFree_append (escapeFree_append (by decide) (hd.code code hcode)) (by decide)
    exact ((herror.append_kept (.self hbrackets)).append_kept hcolon).append_kept hmessage

end

/-! ## Lines that are shown -/

/-- The columns of a line number and one more. -/
def margin (v : View) (labels : List Label) : Nat :=
  (toString ((v.shownLines labels).getLast?.getD 1)).length + 1

theorem exists_shown_line {color : Bool} {text : List Char} {file : String} {labels : List Label}
    (h : labels ≠ []) : ∃ line ∈ (inColor color text file).shownLines labels,
      (toString line).length < (inColor color text file).margin labels := by
  obtain ⟨label, hlabel⟩ := List.exists_mem_of_ne_nil labels h
  have hmem := mem_shownLines.2 ⟨label, hlabel, (inColor color text file).touches_start label⟩
  have hne := List.ne_nil_of_mem hmem
  refine ⟨_, List.getLast_mem hne, ?_⟩
  rw [margin, List.getLast?_eq_some_getLast hne, Option.getD_some]
  exact Nat.lt_succ_self _

/-! ## Whole diagnostics -/

section

variable {text : List Char} {file : String} (htext : EscapeFree text)
include htext

theorem coloredAs_lineRows {labels : List Label} {line : Nat}
    (hlabels : ∀ label ∈ labels, EscapeFree label.message.toList)
    (hshown : line ∈ (inColor false text file).shownLines labels) (width : Nat) :
    ColoredAs (width ≤ (toString line).length)
      (unlines ((inColor false text file).lineRows labels width line))
      (unlines ((inColor true text file).lineRows labels width line)) := by
  have hblank : ColoredAs True " " " " := .self (by decide)
  have hline : EscapeFree (String.ofList (Source.shownLine text line)).toList := by
    obtain ⟨label, -, htouches⟩ := mem_shownLines.1 hshown
    obtain ⟨hpos, hle⟩ := le_of_touches htouches
    rw [String.toList_ofList]
    exact fun hmem => htext (lineText?_subset (@lineText?_eq false text file line hpos hle) hmem)
  have hbar := coloredAs_paint text file "34" "|" (by decide) (by decide)
  have hsource := ((((coloredAs_number text file width line).append_kept hblank).append_kept
    hbar).append_kept hblank).append_kept (.self hline)
  have hcarets := coloredAs_marginRow text file width <| hblank.append_kept <|
    coloredAs_paint text file "31" _ (by decide)
      (escapeFree_carets 1 ((inColor false text file).underlines labels line))
  have hshown' : line ∈ (inColor true text file).shownLines labels := hshown
  rw [lineRows_eq hshown, lineRows_eq hshown']
  refine (coloredAs_unlines_cons hsource <| coloredAs_unlines_cons hcarets <|
    coloredAs_unlines fun mark hmark => ?_).congr (by simp)
  obtain ⟨label, hlabel, hmessage⟩ :=
    exists_label_of_mem_underlines (List.mem_filter.1 hmark).1
  refine coloredAs_marginRow text file width ?_
  exact (hblank.append_kept (.self (escapeFree_blanks _))).append_kept
    (coloredAs_paint text file "31" _ (by decide) (hmessage ▸ hlabels label hlabel))

variable (hfile : EscapeFree file.toList)
include hfile

theorem coloredAs_sourceRows {labels : List Label}
    (hlabels : ∀ label ∈ labels, EscapeFree label.message.toList) :
    ColoredAs (labels = []) (unlines ((inColor false text file).sourceRows labels))
      (unlines ((inColor true text file).sourceRows labels)) := by
  cases labels with
  | nil => exact (ColoredAs.self (s := "") (by decide)).congr (by simp)
  | cons first more =>
    let place := (inColor false text file).position first.span.start
    let width := (inColor false text file).margin (first :: more)
    have hplace : EscapeFree (":" ++ toString place.line ++ ":" ++ toString place.column).toList :=
      escapeFree_append (escapeFree_append (escapeFree_append (by decide) (escapeFree_number _))
        (by decide)) (escapeFree_number _)
    have harrow := ((((ColoredAs.self (s := "  ") (by decide)).append_kept
      (coloredAs_paint text file "34" "-->" (by decide) (by decide))).append_kept
        (.self (s := " ") (by decide))).append_kept (.self hfile)).append_kept (.self hplace)
    have hedge := coloredAs_marginRow text file width (.self (s := "") (by decide))
    have hnone : ColoredAs True (unlines []) (unlines []) := .self (by decide)
    have hstart := coloredAs_unlines_cons harrow (coloredAs_unlines_cons hedge hnone)
    have hend := coloredAs_unlines_cons hedge hnone
    have hlines := ColoredAs.join (l := (inColor false text file).shownLines (first :: more))
      fun line hline => @coloredAs_lineRows text file htext _ _ hlabels hline width
    rw [← unlines_flatMap, ← unlines_flatMap] at hlines
    have hall := (hstart.append hlines).append hend
    rw [← unlines_append, ← unlines_append, ← unlines_append, ← unlines_append] at hall
    refine hall.congr ?_
    simp only [true_and, and_true, reduceCtorEq, iff_false]
    intro hkept
    obtain ⟨line, hline, hroom⟩ := exists_shown_line (List.cons_ne_nil first more)
    exact absurd (hkept line hline) (Nat.not_le.2 hroom)

theorem coloredAs_render {d : Diagnostic} (hd : d.EscapeFree) :
    ColoredAs (d.labels = []) ((inColor false text file).render d)
      ((inColor true text file).render d) := by
  have hheader := coloredAs_headerRow text file hd
  have hnotes := coloredAs_unlines fun note hnote =>
    (((ColoredAs.self (s := "  ") (by decide)).append_kept
      (coloredAs_paint text file "34" "=" (by decide) (by decide))).append_kept
        (.self (s := " ") (by decide))).append_kept (.self (hd.notes note hnote))
  have hsource := coloredAs_sourceRows htext hfile hd.labels
  have hall := (coloredAs_unlines_cons hheader hsource).append_kept hnotes
  rw [← unlines_append, ← unlines_append] at hall
  exact hall.congr (by simp)

theorem coloredAs_renderAll {ds : List Diagnostic} (hds : ∀ d ∈ ds, d.EscapeFree) :
    ColoredAs (∀ d ∈ ds, d.labels = []) ((inColor false text file).renderAll ds)
      ((inColor true text file).renderAll ds) := by
  have heach := ColoredAs.join fun d hd =>
    (coloredAs_render htext hfile (hds d hd)).append_kept (.self (s := "\n") (by decide))
  have herror := coloredAs_paint text file "1;31" "error" (by decide) (by decide)
  unfold renderAll
  dsimp only
  split
  · exact heach
  · exact (heach.append_kept herror).append_kept (.self (by decide))
  · refine (heach.append_kept herror).append_kept (.self ?_)
    exact escapeFree_append (escapeFree_append (by decide) (escapeFree_number _)) (by decide)

end

end View

/-- The coloured text without its escape sequences is the plain text but for blanks in front of line
numbers, and the two are the same just if no line is shown. -/
theorem colors_cost_only_padding {source file : String} {ds : List Diagnostic}
    (hsource : EscapeFree source.toList) (hfile : EscapeFree file.toList)
    (hds : ∀ d ∈ ds, d.EscapeFree) :
    let plain : View := { text := source.toList, file, color := false }
    let colored : View := { text := source.toList, file, color := true }
    (∃ k, Outdents k (plain.renderAll ds) (deleteEscapes (colored.renderAll ds))) ∧
    (deleteEscapes (colored.renderAll ds) = plain.renderAll ds ↔ ∀ d ∈ ds, d.labels = []) := by
  intro plain colored
  obtain ⟨k, short, hstrips, houtdents, hkept⟩ := View.coloredAs_renderAll hsource hfile hds
  rw [← hstrips.deleteEscapes_eq] at houtdents
  exact ⟨⟨k, houtdents⟩, houtdents.eq_iff.trans hkept⟩

/-- The number of the only line loses the blank in front of it. -/
theorem colors_cost_only_padding_one_label :
    let d : Diagnostic := { message := "m", labels := [⟨⟨0, 1⟩, "here"⟩], notes := ["n"] }
    let plain : View := { text := "x".toList, file := "f", color := false }
    let colored : View := { text := "x".toList, file := "f", color := true }
    (∃ k, Outdents k (plain.renderAll [d]) (deleteEscapes (colored.renderAll [d]))) ∧
      deleteEscapes (colored.renderAll [d]) ≠ plain.renderAll [d] := by
  intro d plain colored
  have hd : d.EscapeFree := ⟨by decide, by decide, by decide, by decide⟩
  obtain ⟨houtdents, hsame⟩ := @colors_cost_only_padding "x" "f" [d] (by decide) (by decide)
    (List.forall_mem_singleton.2 hd)
  exact ⟨houtdents, mt hsame.1 (by decide)⟩

/-- In colour the row of a line starts further left than its caret row. -/
theorem colored_line_number_not_aligned : ¬ ∀ (source file : String) (ds : List Diagnostic),
    EscapeFree source.toList → EscapeFree file.toList → (∀ d ∈ ds, d.EscapeFree) →
    deleteEscapes ({ text := source.toList, file, color := true : View }.renderAll ds) =
      { text := source.toList, file, color := false : View }.renderAll ds := by
  intro h
  let d : Diagnostic := { message := "m", labels := [⟨⟨0, 1⟩, ""⟩] }
  have hd : d.EscapeFree := ⟨by decide, by decide, by decide, by decide⟩
  have hsame := h "x" "f" [d] (by decide) (by decide) (List.forall_mem_singleton.2 hd)
  revert hsame
  decide +kernel

end Treewalk
