import Treewalk.Proofs.Lexeme.Accounts

/-!
# Blanks for all but the tokens

Comments and whatever cannot be read do no more than blanks. If every byte outside the tokens is
made a blank, newlines apart, the tokens are the same and there are no errors.
-/

namespace Treewalk

namespace Source

/-! ## Blank bytes -/

def bytes (text : List Char) : List UInt8 := text.flatMap String.utf8EncodeChar

theorem toList_data_ofList (text : List Char) :
    (String.ofList text).toByteArray.data.toList = bytes text := by
  rw [String.toByteArray_ofList, List.utf8Encode, List.data_toByteArray]
  rfl

theorem bytes_append (s t : List Char) : bytes (s ++ t) = bytes s ++ bytes t :=
  List.flatMap_append

theorem length_bytes (text : List Char) : (bytes text).length = byteLength text := by
  induction text with
  | nil => rfl
  | cons c text ih =>
    rw [← List.singleton_append, bytes_append, List.length_append, ih, byteLength_append]
    simp [bytes, String.length_utf8EncodeChar]

/-- A byte is made a blank unless it is kept or a newline. -/
def blankByte (kept : Bool) (byte : UInt8) : UInt8 := if kept || byte = 10 then byte else 32

/-- As many blanks as the character has bytes, but a newline stays. -/
def blankChar (c : Char) : List Char := if c = '\n' then [c] else List.replicate c.utf8Size ' '

/-- Blanks out a text that begins at `offset`, but for the characters whose first byte is kept. -/
def blankFrom (kept : Nat → Bool) (offset : Nat) : List Char → List Char
  | [] => []
  | c :: text =>
    (if kept offset then [c] else blankChar c) ++ blankFrom kept (offset + c.utf8Size) text

/-- A byte below 128 is a whole character. -/
theorem toNat_eq_of_mem_utf8EncodeChar {c : Char} {byte : UInt8}
    (h : byte ∈ String.utf8EncodeChar c) (hbyte : byte.toNat < 128) : c.toNat = byte.toNat := by
  have hval : c.val.toNat = c.toNat := rfl
  simp only [String.utf8EncodeChar, hval] at h
  split_ifs at h
  · obtain rfl := List.mem_singleton.1 h
    rw [UInt8.toNat_ofNat']
    omega
  all_goals
    simp only [List.mem_cons, List.not_mem_nil, or_false, ← UInt8.toNat_inj,
      UInt8.toNat_ofNat'] at h
    omega

theorem eq_newline_of_mem {c : Char} (h : 10 ∈ String.utf8EncodeChar c) : c = '\n' := by
  have hten := toNat_eq_of_mem_utf8EncodeChar h (by decide)
  rw [← Char.ofNat_toNat c, hten]
  rfl

theorem bytes_blankChar (c : Char) :
    bytes (blankChar c) = (String.utf8EncodeChar c).map (blankByte false) := by
  unfold blankChar
  split
  · next hc => subst hc; rfl
  · next hc =>
    have hblanks : bytes (List.replicate c.utf8Size ' ') = List.replicate c.utf8Size 32 := by
      have hblank : String.utf8EncodeChar ' ' = [32] := rfl
      rw [bytes, List.flatMap_replicate, hblank, List.flatten_replicate_singleton]
    rw [hblanks, ← String.length_utf8EncodeChar, eq_comm, List.map_eq_replicate_iff]
    intro byte hbyte
    have hten : byte ≠ 10 := by
      rintro rfl
      exact hc (eq_newline_of_mem hbyte)
    simp [blankByte, hten]

theorem isBlank_of_mem_blankChar {c d : Char} (h : d ∈ blankChar c) : Lexeme.isBlank d := by
  unfold blankChar at h
  split at h
  · next hc =>
    rw [List.mem_singleton.1 h, hc]
    rfl
  · rw [(List.mem_replicate.1 h).2]
    rfl

variable {kept : Nat → Bool} {offset : Nat}

theorem bytes_flatMap_blankChar (text : List Char) :
    bytes (text.flatMap blankChar) = (bytes text).map (blankByte false) := by
  induction text with
  | nil => rfl
  | cons c text ih =>
    rw [List.flatMap_cons, bytes_append, bytes_blankChar, ih, ← List.map_append]
    rfl

theorem blankFrom_append (s t : List Char) :
    blankFrom kept offset (s ++ t) =
      blankFrom kept offset s ++ blankFrom kept (offset + byteLength s) t := by
  induction s generalizing offset with
  | nil => rfl
  | cons c s ih =>
    rw [List.cons_append, blankFrom, blankFrom, ih, byteLength_cons, Nat.add_assoc,
      List.append_assoc]

theorem blankFrom_of_kept {text : List Char}
    (h : ∀ p, offset ≤ p → p < offset + byteLength text → kept p) :
    blankFrom kept offset text = text := by
  induction text generalizing offset with
  | nil => rfl
  | cons c text ih =>
    have hc := c.utf8Size_pos
    rw [byteLength_cons] at h
    rw [blankFrom, if_pos (h offset (Nat.le_refl _) (by omega)),
      ih fun p hlow hhigh => h p (by omega) (by omega)]
    rfl

theorem blankFrom_of_not_kept {text : List Char}
    (h : ∀ p, offset ≤ p → p < offset + byteLength text → ¬ kept p) :
    blankFrom kept offset text = text.flatMap blankChar := by
  induction text generalizing offset with
  | nil => rfl
  | cons c text ih =>
    have hc := c.utf8Size_pos
    rw [byteLength_cons] at h
    rw [blankFrom, if_neg (h offset (Nat.le_refl _) (by omega)),
      ih fun p hlow hhigh => h p (by omega) (by omega), List.flatMap_cons]

theorem exists_of_blankFrom_eq {c : Char} (hc : c ≠ ' ') {text rest : List Char}
    (h : blankFrom kept offset text = c :: rest) :
    ∃ text', text = c :: text' ∧ rest = blankFrom kept (offset + c.utf8Size) text' := by
  cases text with
  | nil => cases h
  | cons d text =>
    obtain ⟨n, hn⟩ := Nat.exists_eq_add_one.2 d.utf8Size_pos
    rw [blankFrom, blankChar] at h
    split at h
    · cases h
      exact ⟨text, rfl, rfl⟩
    · split at h
      · cases h
        exact ⟨text, rfl, rfl⟩
      · rw [hn, List.replicate_succ] at h
        exact absurd (List.cons.inj h).1.symm hc

theorem startsFrom_replicate (n : Nat) (text : List Char) :
    startsFrom offset (List.replicate n ' ' ++ text) = startsFrom (offset + n) text := by
  induction n generalizing offset with
  | zero => rfl
  | succ n ih =>
    have hsize : ' '.utf8Size = 1 := rfl
    rw [List.replicate_succ, List.cons_append, startsFrom, if_neg (by decide), ih, hsize,
      Nat.add_assoc, Nat.add_comm 1]

theorem startsFrom_blankFrom (text : List Char) :
    startsFrom offset (blankFrom kept offset text) = startsFrom offset text := by
  induction text generalizing offset with
  | nil => rfl
  | cons c text ih =>
    rw [blankFrom, blankChar, startsFrom]
    split
    · rw [List.singleton_append, startsFrom, ih]
    · split
      · next hc => rw [List.singleton_append, startsFrom, if_pos hc, ih]
      · rw [startsFrom_replicate, ih]

/-- The bytes of a text that begins at `offset`, with blanks for those that are not kept. -/
def blankBytes (kept : Nat → Bool) (offset : Nat) (text : List Char) : List UInt8 :=
  (bytes text).mapIdx fun i => blankByte (kept (offset + i))

theorem blankBytes_append (s t : List Char) :
    blankBytes kept offset (s ++ t) =
      blankBytes kept offset s ++ blankBytes kept (offset + byteLength s) t := by
  rw [blankBytes, bytes_append, List.mapIdx_append, length_bytes]
  congr 2
  funext i
  rw [Nat.add_comm i, Nat.add_assoc]

theorem blankBytes_eq_map {text : List Char} {here : Bool}
    (h : ∀ p, offset ≤ p → p < offset + byteLength text → kept p = here) :
    blankBytes kept offset text = (bytes text).map (blankByte here) := by
  refine List.ext_getElem (by simp [blankBytes]) fun i _ hi => ?_
  rw [List.length_map, length_bytes] at hi
  simp only [blankBytes, List.getElem_mapIdx, List.getElem_map]
  rw [h (offset + i) (by omega) (by omega)]

end Source

open Source

/-! ## Lexemes among blanks -/

namespace Lexeme

def isToken (l : Lexeme) : Bool := l.tokenKind?.isSome

theorem Cuts.blanks {offset : Nat} {s text : List Char} {ls : List Lexeme}
    (hs : ∀ c ∈ s, isBlank c) (h : Cuts (offset + byteLength s) text ls) :
    Cuts offset (s ++ text) ls := by
  induction s generalizing offset with
  | nil => exact h
  | cons c s ih =>
    obtain ⟨hc, hs⟩ := List.forall_mem_cons.1 hs
    rw [byteLength_cons, ← Nat.add_assoc] at h
    exact .blank hc (ih hs h)

theorem Fits.before_blanked {kind : Kind} {text after : List Char} (h : Fits kind text after)
    (htoken : (tokenKind? ⟨kind, 0, text⟩).isSome) (kept : Nat → Bool) (offset : Nat) :
    Fits kind text (blankFrom kept offset after) := by
  refine h.before_other htoken (fun c hc => ?_) fun d more hd hdigit => ?_
  · by_cases hblank : c = ' '
    · exact .inr (.inl hblank)
    · obtain ⟨more, hmore⟩ := List.head?_eq_some_iff.1 hc
      obtain ⟨after', rfl, -⟩ := exists_of_blankFrom_eq hblank hmore
      exact .inl rfl
  · obtain ⟨after', rfl, hmore⟩ := exists_of_blankFrom_eq (by decide) hd
    have hblank : d ≠ ' ' := by
      rintro rfl
      cases hdigit
    obtain ⟨more', rfl, -⟩ := exists_of_blankFrom_eq hblank hmore.symm
    exact ⟨more', rfl⟩

theorem Cuts.le_start {offset : Nat} {text : List Char} {ls : List Lexeme} (h : Cuts offset text ls)
    {l : Lexeme} (hl : l ∈ ls) : offset ≤ l.span.start := by
  obtain ⟨before, after, -, hstart, -⟩ := h.decomposes.placed l hl
  rw [hstart]
  exact Nat.le_add_right _ _

/-- With blanks for the bytes that are not kept, a text that begins at `offset` is blanks and the
lexemes `ls`. -/
structure BlanksTo (kept : Nat → Bool) (offset : Nat) (text : List Char) (ls : List Lexeme) :
    Prop where
  cuts : Cuts offset (blankFrom kept offset text) ls
  bytes_eq : bytes (blankFrom kept offset text) = blankBytes kept offset text

section

variable {kept : Nat → Bool} {offset : Nat} {text after : List Char} {ls : List Lexeme}

theorem BlanksTo.dropped
    (hkept : ∀ p, offset ≤ p → p < offset + byteLength text → kept p = false)
    (h : BlanksTo kept (offset + byteLength text) after ls) :
    BlanksTo kept offset (text ++ after) ls := by
  have hblank : blankFrom kept offset text = text.flatMap blankChar :=
    blankFrom_of_not_kept fun p hlow hhigh => by simp [hkept p hlow hhigh]
  have hbytes := bytes_flatMap_blankChar text
  constructor
  · rw [blankFrom_append, hblank]
    refine Cuts.blanks (fun c hc => ?_) ?_
    · obtain ⟨d, -, hd⟩ := List.mem_flatMap.1 hc
      exact isBlank_of_mem_blankChar hd
    · have hsize := congrArg List.length hbytes
      rw [List.length_map, length_bytes, length_bytes] at hsize
      rw [hsize]
      exact h.cuts
  · rw [blankFrom_append, bytes_append, blankBytes_append, h.bytes_eq, hblank, hbytes,
      blankBytes_eq_map hkept]

theorem BlanksTo.token {kind : Kind} (hfits : Fits kind text after)
    (htoken : isToken ⟨kind, offset, text⟩)
    (hkept : ∀ p, offset ≤ p → p < offset + byteLength text → kept p = true)
    (h : BlanksTo kept (offset + byteLength text) after ls) :
    BlanksTo kept offset (text ++ after) (⟨kind, offset, text⟩ :: ls) := by
  have hsame : blankFrom kept offset text = text := blankFrom_of_kept hkept
  constructor
  · rw [blankFrom_append, hsame]
    exact .lexeme (hfits.before_blanked htoken kept _) h.cuts
  · have hid : blankByte true = id := by
      funext byte
      simp [blankByte]
    rw [blankFrom_append, bytes_append, blankBytes_append, h.bytes_eq, hsame,
      blankBytes_eq_map hkept, hid, List.map_id]

theorem Cuts.blanksTo (h : Cuts offset text ls)
    (hkept : ∀ p, offset ≤ p → (kept p ↔ ∃ l ∈ ls, l.isToken ∧ l.Covers p)) :
    BlanksTo kept offset text (ls.filter isToken) := by
  induction h with
  | done => exact ⟨.done, rfl⟩
  | @blank offset c text ls hc hrest ih =>
    rw [← List.singleton_append]
    refine BlanksTo.dropped (fun p _ hhigh => ?_) ?_
    · -- The lexemes come after the blank.
      rw [Bool.eq_false_iff]
      intro hp
      obtain ⟨l, hl, -, hcovers⟩ := (hkept p ‹_›).1 hp
      have hstart := hrest.le_start hl
      have hlow := hcovers.1
      simp only [byteLength_cons, byteLength_nil] at hhigh
      omega
    · have hsize : byteLength [c] = c.utf8Size := by simp
      rw [hsize]
      exact ih fun p hp => hkept p (by omega)
  | @lexeme offset kind text after ls hfits hrest ih =>
    have hfirst : ∀ p, offset ≤ p → p < offset + byteLength text →
        (kept p ↔ isToken ⟨kind, offset, text⟩) := by
      intro p hlow hhigh
      rw [hkept p hlow]
      constructor
      · rintro ⟨l, hl, htoken, hcovers⟩
        obtain rfl | hl := List.mem_cons.1 hl
        · exact htoken
        · have hstart := hrest.le_start hl
          have hlow := hcovers.1
          omega
      · exact fun htoken => ⟨_, List.mem_cons_self, htoken, hlow, hhigh⟩
    have hrest : BlanksTo kept (offset + byteLength text) after (ls.filter isToken) := by
      refine ih fun p hp => (hkept p (by omega)).trans ?_
      simp only [List.mem_cons, exists_eq_or_imp]
      refine or_iff_right ?_
      rintro ⟨-, -, hhigh⟩
      simp only [span] at hhigh
      omega
    by_cases htoken : isToken ⟨kind, offset, text⟩
    · rw [List.filter_cons_of_pos htoken]
      exact hrest.token hfits htoken fun p hlow hhigh => (hfirst p hlow hhigh).2 htoken
    · rw [List.filter_cons_of_neg htoken]
      refine hrest.dropped fun p hlow hhigh => ?_
      exact Bool.eq_false_iff.2 (mt (hfirst p hlow hhigh).1 htoken)

end

end Lexeme

/-! ## Sources among blanks -/

/-- Is the byte at `p` in a token? -/
def inToken (source : String) (p : Nat) : Bool :=
  (scan source).tokens.any fun t => !t.isEnd && t.span.start ≤ p && p < t.span.stop

/-- The source with all but its tokens blanked out. -/
def blankOut (source : String) : String :=
  .ofList (blankFrom (inToken source) 0 source.toList)

theorem inToken_iff {source : String} {p : Nat} : inToken source p ↔
    ∃ l ∈ Lexeme.lex source.toList, l.isToken ∧ l.Covers p := by
  simp only [inToken, List.any_eq_true, Bool.and_eq_true, Bool.not_eq_true', decide_eq_true_eq]
  constructor
  · rintro ⟨t, ht, ⟨hend, hlow⟩, hhigh⟩
    rw [tokens_scan, List.mem_append, List.mem_singleton] at ht
    obtain ht | rfl := ht
    · obtain ⟨l, hl, ht⟩ := List.mem_filterMap.1 ht
      obtain ⟨-, hspan⟩ := Lexeme.gives_of_token? ht
      rw [hspan] at hlow hhigh
      exact ⟨l, hl, Option.isSome_map.symm.trans (Option.isSome_of_eq_some ht), hlow, hhigh⟩
    · cases hend
  · rintro ⟨l, hl, htoken, hlow, hhigh⟩
    have hsome : (l.token? (LineTable.ofText source.toList)).isSome :=
      Option.isSome_map.trans htoken
    obtain ⟨t, ht⟩ := Option.isSome_iff_exists.1 hsome
    have hmem : t ∈ words source.toList := List.mem_filterMap.2 ⟨l, hl, ht⟩
    obtain ⟨-, hspan⟩ := Lexeme.gives_of_token? ht
    refine ⟨t, ?_, ⟨?_, ?_⟩, ?_⟩
    · rw [tokens_scan]
      exact List.mem_append_left _ hmem
    · simpa using Lexeme.isEnd_of_mem_words hmem
    · rwa [hspan]
    · rwa [hspan]

theorem blanksTo_source (source : String) :
    Lexeme.BlanksTo (inToken source) 0 source.toList
      ((Lexeme.lex source.toList).filter Lexeme.isToken) :=
  (Lexeme.cuts_lexFrom 0 source.toList).blanksTo fun _ _ => inToken_iff

theorem bytes_blankOut (source : String) :
    (blankOut source).toByteArray.data.toList = source.toByteArray.data.toList.mapIdx
      fun p => blankByte (inToken source p) := by
  have hbytes := (blanksTo_source source).bytes_eq
  have hsource := toList_data_ofList source.toList
  rw [String.ofList_toList] at hsource
  rw [blankOut, toList_data_ofList, hbytes, blankBytes, hsource]
  simp only [Nat.zero_add]

theorem lex_blankOut (source : String) : Lexeme.lex (blankOut source).toList =
    (Lexeme.lex source.toList).filter Lexeme.isToken := by
  rw [blankOut, String.toList_ofList]
  exact Lexeme.lexFrom_of_cuts (blanksTo_source source).cuts

theorem lineTable_blankOut (source : String) :
    LineTable.ofText (blankOut source).toList = LineTable.ofText source.toList := by
  rw [blankOut, String.toList_ofList, LineTable.ofText, startsFrom_blankFrom, LineTable.ofText]

theorem words_blankOut (source : String) :
    words (blankOut source).toList = words source.toList := by
  rw [words, words, lineTable_blankOut, lex_blankOut, List.filterMap_filter]
  refine List.filterMap_congr fun l _ => ?_
  by_cases htoken : l.isToken
  · rw [if_pos htoken]
  · have hnone : l.tokenKind? = none := by simpa [Lexeme.isToken] using htoken
    rw [if_neg htoken, Lexeme.token?, hnone]
    rfl

/-- Everything that is not a token is as good as blank. -/
theorem scan_blankOut (source : String) :
    (blankOut source).toByteArray.data.toList = source.toByteArray.data.toList.mapIdx
      (fun p byte => if inToken source p || byte = 10 then byte else 32) ∧
    (scan (blankOut source)).errors = [] ∧
    (scan (blankOut source)).tokens = (scan source).tokens := by
  refine ⟨bytes_blankOut source, errors_ofText_eq_nil_iff.2 fun l hl => ?_, ?_⟩
  · rw [lex_blankOut] at hl
    exact Lexeme.fault?_eq_none (List.mem_filter.1 hl).2
  · have hsize : (blankOut source).utf8ByteSize = source.utf8ByteSize := by
      have hlength := congrArg List.length (bytes_blankOut source)
      simpa using hlength
    rw [tokens_scan, tokens_scan, words_blankOut, lineTable_blankOut, hsize]

example : blankOut "a ⊗ // c\n\"b" = "a         \n  " := by decide +kernel

end Treewalk
