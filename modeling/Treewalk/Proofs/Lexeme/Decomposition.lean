import Treewalk.Proofs.Lexeme.Classes

/-!
# Cutting a source into lexemes

`Decomposes` says what a list of lexemes has to do with a source: each lexeme stands where its span
says and fits there, and what lies between them is blank. The list that `lex` gives does, and it is
the only one.
-/

namespace Treewalk.Lexeme

open Source

/-! ## From left to right -/

/-- `Cuts offset text ls`: read from the left, a text that begins at `offset` is blanks and
the lexemes `ls`. -/
inductive Cuts : Nat → List Char → List Lexeme → Prop
  | done {offset} : Cuts offset [] []
  | blank {offset c text ls} : isBlank c → Cuts (offset + c.utf8Size) text ls →
    Cuts offset (c :: text) ls
  | lexeme {offset kind text after ls} : Fits kind text after →
    Cuts (offset + byteLength text) after ls → Cuts offset (text ++ after) (⟨kind, offset, text⟩ :: ls)

theorem exists_cuts (text : List Char) (offset : Nat) : ∃ ls, Cuts offset text ls := by
  match text with
  | [] => exact ⟨[], .done⟩
  | c :: text =>
    by_cases hc : isBlank c
    · obtain ⟨ls, hls⟩ := exists_cuts text (offset + c.utf8Size)
      exact ⟨ls, .blank hc hls⟩
    · obtain ⟨kind, more, after, rfl, hfits⟩ := exists_fits hc text
      obtain ⟨ls, hls⟩ := exists_cuts after (offset + byteLength (c :: more))
      exact ⟨_, .lexeme hfits hls⟩
termination_by text.length
decreasing_by all_goals simp_all; try omega

theorem lexFrom_of_cuts {offset : Nat} {text : List Char} {ls : List Lexeme}
    (h : Cuts offset text ls) : lexFrom offset text = ls := by
  induction h with
  | done => rw [lexFrom]
  | blank hc _ ih => rw [lexFrom, if_pos hc, ih]
  | @lexeme offset kind text after ls hfits _ ih =>
    obtain ⟨c, more, rfl, hc⟩ := hfits.head
    rw [List.cons_append, lexFrom, if_neg hc, munch_of_fits hfits]
    simp only [List.take_left, List.drop_left, span, ih]

theorem cuts_lexFrom (offset : Nat) (text : List Char) : Cuts offset text (lexFrom offset text) := by
  obtain ⟨ls, hls⟩ := exists_cuts text offset
  exact lexFrom_of_cuts hls ▸ hls

/-! ## As a whole -/

/-- Does the byte at `p` belong to the lexeme? -/
def Covers (l : Lexeme) (p : Nat) : Prop := l.span.start ≤ p ∧ p < l.span.stop

/-- `Decomposes offset source ls`: the lexemes `ls` are what a source that begins at `offset` has
besides blanks. -/
structure Decomposes (offset : Nat) (source : List Char) (ls : List Lexeme) : Prop where
  /-- Each is a run of whole characters of the source, and fits before what follows it. -/
  placed : ∀ l ∈ ls, ∃ before after, source = before ++ l.text ++ after ∧
    l.span.start = offset + byteLength before ∧ Fits l.kind l.text after
  nonempty : ∀ l ∈ ls, l.span.start < l.span.stop
  ordered : ls.Pairwise fun l m => l.span.stop ≤ m.span.start
  /-- A character with a byte outside all of them is blank. -/
  between : ∀ before c after p, source = before ++ c :: after → offset + byteLength before ≤ p →
    p < offset + byteLength before + c.utf8Size → (∀ l ∈ ls, ¬ l.Covers p) → isBlank c

theorem eq_nil_of_byteLength_eq_zero {text : List Char} (h : byteLength text = 0) : text = [] := by
  cases text with
  | nil => rfl
  | cons c text =>
    have := c.utf8Size_pos
    rw [byteLength_cons] at h
    omega

theorem exists_between {s t u v : List Char} (h : s ++ t = u ++ v)
    (hle : byteLength s ≤ byteLength u) : ∃ mid, u = s ++ mid ∧ t = mid ++ v := by
  obtain ⟨mid, hu, ht⟩ | ⟨mid, hs, hv⟩ := List.append_eq_append_iff.1 h
  · exact ⟨mid, hu, ht⟩
  · rw [hs, byteLength_append] at hle
    obtain rfl : mid = [] := eq_nil_of_byteLength_eq_zero (by omega)
    exact ⟨[], by simpa using hs.symm, by simpa using hv.symm⟩

namespace Decomposes

variable {offset : Nat} {source text after : List Char} {ls : List Lexeme}

theorem nil : Decomposes offset [] [] where
  placed := by simp
  nonempty := by simp
  ordered := .nil
  between := by simp

theorem blank {c : Char} (hc : isBlank c) (h : Decomposes (offset + c.utf8Size) text ls) :
    Decomposes offset (c :: text) ls where
  placed l hl := by
    obtain ⟨before, after, rfl, hstart, hfits⟩ := h.placed l hl
    refine ⟨c :: before, after, rfl, ?_, hfits⟩
    rw [hstart, byteLength_cons, Nat.add_assoc]
  nonempty := h.nonempty
  ordered := h.ordered
  between before d after p hsource hlow hhigh hout := by
    cases before with
    | nil => cases hsource; exact hc
    | cons e before =>
      obtain ⟨rfl, rfl⟩ := List.cons.inj hsource
      rw [byteLength_cons, ← Nat.add_assoc] at hlow hhigh
      exact h.between before d after p rfl hlow hhigh hout

theorem lexeme {kind : Kind} (hfits : Fits kind text after)
    (h : Decomposes (offset + byteLength text) after ls) :
    Decomposes offset (text ++ after) (⟨kind, offset, text⟩ :: ls) where
  placed l hl := by
    obtain rfl | hl := List.mem_cons.1 hl
    · exact ⟨[], after, rfl, rfl, hfits⟩
    · obtain ⟨before, rest, rfl, hstart, hl⟩ := h.placed l hl
      refine ⟨text ++ before, rest, by simp, ?_, hl⟩
      rw [hstart, byteLength_append, Nat.add_assoc]
  nonempty l hl := by
    obtain rfl | hl := List.mem_cons.1 hl
    · obtain ⟨c, more, rfl, -⟩ := hfits.head
      have := c.utf8Size_pos
      simp only [span, byteLength_cons]
      omega
    · exact h.nonempty l hl
  ordered := by
    refine List.pairwise_cons.2 ⟨fun m hm => ?_, h.ordered⟩
    obtain ⟨before, rest, -, hstart, -⟩ := h.placed m hm
    rw [hstart]
    exact Nat.le_add_right _ _
  between before d rest p hsource hlow hhigh hout := by
    by_cases hle : byteLength text ≤ byteLength before
    · obtain ⟨mid, rfl, hafter⟩ := exists_between hsource hle
      rw [byteLength_append, ← Nat.add_assoc] at hlow hhigh
      exact h.between mid d rest p hafter hlow hhigh fun l hl => hout l (List.mem_cons_of_mem _ hl)
    · -- The character begins in the lexeme, so all of it is there.
      obtain ⟨mid, htext, hmid⟩ := exists_between hsource.symm (by omega)
      cases mid with
      | nil => simp [htext] at hle
      | cons e mid =>
        obtain ⟨rfl, -⟩ := List.cons.inj hmid
        refine absurd ⟨?_, ?_⟩ (hout _ List.mem_cons_self)
        · exact Nat.le_trans (Nat.le_add_right _ _) hlow
        · simp only [span, htext, byteLength_append, byteLength_cons]
          omega

theorem of_blank {c : Char} (h : Decomposes offset (c :: text) ls)
    (hout : ∀ l ∈ ls, ¬ l.Covers offset) : Decomposes (offset + c.utf8Size) text ls where
  placed l hl := by
    obtain ⟨before, after, hsource, hstart, hfits⟩ := h.placed l hl
    cases before with
    | nil =>
      have := h.nonempty l hl
      rw [byteLength_nil] at hstart
      exact absurd ⟨Nat.le_of_eq hstart, by omega⟩ (hout l hl)
    | cons d before =>
      obtain ⟨rfl, rfl⟩ := List.cons.inj hsource
      exact ⟨before, after, rfl, by rw [hstart, byteLength_cons, Nat.add_assoc], hfits⟩
  nonempty := h.nonempty
  ordered := h.ordered
  between before d after p hsource hlow hhigh := by
    refine h.between (c :: before) d after p (by rw [hsource]; rfl) ?_ ?_
    all_goals rw [byteLength_cons]; omega

theorem of_lexeme {l : Lexeme} (h : Decomposes l.start (l.text ++ after) (l :: ls)) :
    Decomposes (l.start + byteLength l.text) after ls where
  placed m hm := by
    obtain ⟨before, rest, hsource, hstart, hfits⟩ := h.placed m (List.mem_cons_of_mem _ hm)
    have hle := (List.pairwise_cons.1 h.ordered).1 m hm
    rw [hstart] at hle
    obtain ⟨mid, rfl, rfl⟩ : ∃ mid, before = l.text ++ mid ∧ after = mid ++ (m.text ++ rest) :=
      exists_between (by rw [hsource, List.append_assoc]) (Nat.add_le_add_iff_left.1 hle)
    refine ⟨mid, rest, by simp, ?_, hfits⟩
    rw [hstart, byteLength_append, Nat.add_assoc]
  nonempty m hm := h.nonempty m (List.mem_cons_of_mem _ hm)
  ordered := (List.pairwise_cons.1 h.ordered).2
  between before d rest p hsource hlow hhigh hout := by
    refine h.between (l.text ++ before) d rest p (by rw [hsource, List.append_assoc]) ?_ ?_ ?_
    · rw [byteLength_append]; omega
    · rw [byteLength_append]; omega
    · intro m hm
      obtain rfl | hm := List.mem_cons.1 hm
      · rintro ⟨-, hstop⟩
        simp only [span] at hstop
        omega
      · exact hout m hm

theorem exists_first {l : Lexeme} (h : Decomposes offset source ls) (hl : l ∈ ls)
    (hcovers : l.Covers offset) : ∃ after rest, source = l.text ++ after ∧ ls = l :: rest ∧
      l.start = offset ∧ Fits l.kind l.text after := by
  obtain ⟨before, after, hsource, hstart, hfits⟩ := h.placed l hl
  have hlow := hcovers.1
  obtain rfl : before = [] := eq_nil_of_byteLength_eq_zero (by omega)
  cases ls with
  | nil => simp at hl
  | cons m rest =>
    obtain rfl | hrest := List.mem_cons.1 hl
    · exact ⟨after, rest, hsource, rfl, hstart, hfits⟩
    · -- Nothing fits before the first byte.
      have hstop := (List.pairwise_cons.1 h.ordered).1 l hrest
      have hnonempty := h.nonempty m List.mem_cons_self
      obtain ⟨before', -, -, hstart', -⟩ := h.placed m List.mem_cons_self
      omega

end Decomposes

theorem Decomposes.cuts {offset : Nat} {source : List Char} {ls : List Lexeme}
    (h : Decomposes offset source ls) : Cuts offset source ls := by
  induction hn : source.length using Nat.strongRecOn generalizing offset source ls with
  | ind n ih =>
    subst hn
    cases source with
    | nil =>
      cases ls with
      | nil => exact .done
      | cons l ls =>
        obtain ⟨before, after, hsource, -, hfits⟩ := h.placed l List.mem_cons_self
        obtain ⟨c, more, htext, -⟩ := hfits.head
        simp [htext] at hsource
    | cons c text =>
      by_cases hcovered : ∃ l ∈ ls, l.Covers offset
      · obtain ⟨l, hl, hcovers⟩ := hcovered
        obtain ⟨after, rest, hsource, rfl, rfl, hfits⟩ := h.exists_first hl hcovers
        have hshorter : after.length < (c :: text).length := by
          obtain ⟨d, more, htext, -⟩ := hfits.head
          rw [hsource, htext, List.length_append, List.length_cons]
          omega
        rw [hsource] at h ⊢
        exact .lexeme hfits (ih _ hshorter h.of_lexeme rfl)
      · have hout : ∀ l ∈ ls, ¬ l.Covers offset := fun l hl hl' => hcovered ⟨l, hl, hl'⟩
        have hc := h.between [] c text offset rfl (Nat.le_refl _)
          (Nat.lt_add_of_pos_right c.utf8Size_pos) hout
        exact .blank hc (ih _ (Nat.lt_succ_self _) (h.of_blank hout) rfl)

theorem Cuts.decomposes {offset : Nat} {source : List Char} {ls : List Lexeme}
    (h : Cuts offset source ls) : Decomposes offset source ls := by
  induction h with
  | done => exact .nil
  | blank hc _ ih => exact .blank hc ih
  | lexeme hfits _ ih => exact .lexeme hfits ih

/-- The lexemes of a source decompose it, and nothing else does. -/
theorem lex_is_only_decomposition (source : List Char) :
    Decomposes 0 source (lex source) ∧ ∀ ls, Decomposes 0 source ls → ls = lex source :=
  ⟨(cuts_lexFrom 0 source).decomposes, fun _ h => (lexFrom_of_cuts h.cuts).symm⟩

end Treewalk.Lexeme
