import Treewalk.Proofs.Cli.Scripts
import Treewalk.Proofs.Json.Numbers
import Treewalk.Proofs.Lexeme.Delimited
import Treewalk.Proofs.Lexeme.Places

/-!
# Tokens as JSON, one on a line

Each token of a source is shown as an object on one line, and the object says all that the token is.
Only an infinite number is not said: it is `null`, like the value of a token that has none.
-/

namespace Treewalk

open Text

/-! ## One token -/

/-- What is read for the value of a token. A finite double is the only one nearest to the decimal
that stands for it. -/
inductive Literal.Told : Option Literal → Json.Value → Prop
  | none : Told none .null
  | string (s : String) : Told (some (.string s)) (.string s)
  | number {x : Float} {q : ℚ} : x.isFinite →
      (∀ pattern, Number.IsNearest q pattern ↔ x.toBits.toNat = pattern) →
      Told (some (.number x)) (.number q)
  | infinite {x : Float} : Number.form x = .infinite false → Told (some (.number x)) .null

/-- What is read for a token, if `literal` is read for its value. -/
def Token.told (t : Token) (literal : Json.Value) : Json.Value :=
  .object
    [("kind", .string t.kind.name),
      ("lexeme", .string t.lexeme),
      ("line", .number t.line),
      ("literal", literal),
      ("span", .array [.number t.span.start, .number t.span.stop])]

/-- A line that is the token in JSON. -/
structure Token.On (line : String) (t : Token) : Prop where
  plain : Json.Plain line.toList
  decodes : ∃ literal, Json.decode? line = some (t.told literal) ∧ Literal.Told t.literal literal

theorem exists_told_number (text : List Char) : ∃ v,
    (∀ depth, Json.Reads (Json.value? (depth + 1)) (Json.number (Number.read text)).toList v) ∧
      Literal.Told (some (.number (Number.read text))) v := by
  unfold Number.read
  dsimp only
  generalize hpattern : Number.nearest _ _ = pattern
  have hle : pattern ≤ Number.infinityPattern := hpattern ▸ Nat.min_le_left _ _
  rcases Nat.lt_or_eq_of_le hle with h | rfl
  · obtain ⟨q, hreads, hnearest⟩ := Json.exists_reads_double h
    refine ⟨_, hreads, .number ?_ ?_⟩
    · rw [Number.isFinite_eq, Number.value?, Number.form_ofBits h]
      rfl
    · rw [Number.toBits_ofBits hle]
      exact hnearest
  · refine ⟨.null, fun depth => ?_, .infinite Number.form_infinity⟩
    rw [Json.number, Number.form_infinity]
    exact Json.reads_null depth

theorem exists_told_literal (l : Lexeme) : ∃ v,
    (∀ depth, Json.Reads (Json.value? (depth + 1)) (Literal.json l.literal?).toList v) ∧
      Literal.Told l.literal? v := by
  unfold Lexeme.literal?
  split
  · exact exists_told_number l.text
  · exact ⟨_, fun depth => Json.reads_string depth _, .string _⟩
  · exact ⟨_, Json.reads_null, .none⟩

theorem reads_span (depth : Nat) (span : Span) :
    Json.Reads (Json.value? (depth + 2)) s!"[{span.start},{span.stop}]".toList
      (.array [.number span.start, .number span.stop]) := by
  have hparts := List.Forall₂.cons (Json.reads_nat depth span.start)
    (.cons (Json.reads_nat depth span.stop) .nil)
  have htext : s!"[{span.start},{span.stop}]".toList = '[' ::
      ([','].intercalate [(toString span.start).toList, (toString span.stop).toList] ++ [']']) := by
    rw [show s!"[{span.start},{span.stop}]" =
      "[" ++ toString span.start ++ "," ++ toString span.stop ++ "]" from rfl]
    simp [List.intercalate_cons_cons]
  rw [htext]
  exact Json.reads_array hparts

theorem reads_json {t : Token} {v : Json.Value}
    (h : ∀ depth, Json.Reads (Json.value? (depth + 1)) (Literal.json t.literal).toList v)
    (depth : Nat) : Json.Reads (Json.value? (depth + 3)) t.json.toList (t.told v) := by
  refine Json.reads_object (.cons ⟨rfl, Json.reads_string _ _⟩ (.cons ⟨rfl, Json.reads_string _ _⟩
    (.cons ⟨rfl, Json.reads_nat _ _⟩ (.cons ⟨rfl, h _⟩ (.cons ⟨rfl, reads_span _ _⟩ .nil)))))

theorem Token.on_of_mem_scan {source : String} {t : Token} (h : t ∈ (scan source).tokens) :
    Token.On t.json t := by
  obtain ⟨v, hreads, htold⟩ : ∃ v,
      (∀ depth, Json.Reads (Json.value? (depth + 1)) (Literal.json t.literal).toList v) ∧
        Literal.Told t.literal v := by
    rw [tokens_scan, List.mem_append, List.mem_singleton] at h
    rcases h with h | rfl
    · obtain ⟨kind, text, -, -, hspells⟩ := spelled_of_mem_words h
      rw [hspells.literal]
      exact exists_told_literal _
    · exact ⟨_, Json.reads_null, .none⟩
  have hlength : 3 ≤ t.json.length := Nat.le_trans (by simp) (Json.length_le_object _)
  exact ⟨(reads_json hreads 0).plain, v, Json.decode?_of_reads hlength (reads_json hreads), htold⟩

/-! ## All tokens -/

namespace Cli

theorem toList_unlines (lines : List String) :
    (View.unlines lines).toList = ['\n'].intercalate (lines.map String.toList ++ [[]]) := by
  induction lines with
  | nil => rfl
  | cons line lines ih =>
    have hfirst : View.unlines (line :: lines) = line ++ "\n" ++ View.unlines lines := by
      simp [View.unlines, String.join_cons]
    rw [hfirst, String.toList_append, String.toList_append, ih, List.map_cons]
    cases lines <;> simp [List.intercalate_cons_cons]

theorem splitOn_unlines {lines : List String} (h : ∀ line ∈ lines, Json.Plain line.toList) :
    (View.unlines lines).toList.splitOn '\n' = lines.map String.toList ++ [[]] := by
  rw [toList_unlines, List.splitOn_intercalate]
  · rw [List.forall_mem_append, List.forall_mem_map]
    exact ⟨fun line hline hmem => absurd (h line hline _ hmem) (by decide), by simp⟩
  · simp

theorem out_logAll (config : Config) (messages : List String) :
    (logAll config messages).out = "" := by
  unfold logAll
  split <;> rfl

theorem out_append (a b : Console) : (a ++ b).out = a.out ++ b.out := rfl

theorem exists_exit_of_dump {config : Config} {stage : DumpStage} (hdump : config.dump = some stage)
    (path : String) {content : Except ReadError ByteArray} {source : String}
    (hread : content.bind decode = .ok source) :
    ∃ exit, (∀ n, runScript n config path content = some exit) ∧
      exit.console.out = View.unlines (Dump.of stage config.json source).lines := by
  have hscript : ∀ n, scriptExit n config path source =
      some (dumpSource config stage path source) := by
    intro n
    rw [scriptExit, hdump]
  refine ⟨_, fun n => by rw [runScript, hread]; dsimp only; rw [hscript]; rfl, ?_⟩
  simp only [dumpSource, log, out_append, out_logAll]
  simp [showDiagnostics, Console.output, Console.error]

/-- The tokens shown in JSON are lines, one for each token, and decoding a line gives its token
back. -/
theorem token_lines_decode {config : Config} (hdump : config.dump = some .tokens)
    (hjson : config.json = true) (path : String) {content : Except ReadError ByteArray}
    {source : String} (hread : content.bind decode = .ok source) :
    ∃ exit lines, (∀ n, runScript n config path content = some exit) ∧
      exit.console.out.toList.splitOn '\n' = lines.map String.toList ++ [[]] ∧
      List.Forall₂ Token.On lines (scan source).tokens := by
  obtain ⟨exit, hexit, hout⟩ := exists_exit_of_dump hdump path hread
  have hlines : (Dump.of .tokens config.json source).lines =
      (scan source).tokens.map Token.json := by
    rw [hjson]
    rfl
  have hon : List.Forall₂ Token.On ((scan source).tokens.map Token.json) (scan source).tokens := by
    rw [List.forall₂_map_left_iff, List.forall₂_same]
    exact fun t => Token.on_of_mem_scan
  refine ⟨exit, _, hexit, ?_, hon⟩
  rw [hout, hlines, splitOn_unlines]
  rw [List.forall_mem_map]
  exact fun t ht => (Token.on_of_mem_scan ht).plain

theorem token_lines_decode_string_and_number :
    let config : Config := { color := false, verbose := true, dump := some .tokens, json := true }
    let content : Except ReadError ByteArray := .ok "\"a\n\\\" 0.1".toUTF8
    content.bind decode = .ok "\"a\n\\\" 0.1" ∧
    ∃ exit lines, runScript 0 config "s" content = some exit ∧
      exit.console.out.toList.splitOn '\n' = lines.map String.toList ++ [[]] ∧
      List.Forall₂ Token.On lines (scan "\"a\n\\\" 0.1").tokens ∧ lines.length = 3 := by
  intro config content
  have hread : content.bind decode = .ok "\"a\n\\\" 0.1" := by decide +kernel
  have hcount : (scan "\"a\n\\\" 0.1").tokens.length = 3 := by decide +kernel
  obtain ⟨exit, lines, hexit, hout, hlines⟩ :=
    @token_lines_decode config rfl rfl "s" _ _ hread
  exact ⟨hread, exit, lines, hexit 0, hout, hlines, hlines.length_eq.trans hcount⟩

end Cli

end Treewalk
