import Treewalk.Proofs.Eval.Frames
import Treewalk.Proofs.Eval.Repetition
import Treewalk.Proofs.Eval.Rules

/-!
# Operators, variables and output by the rules

What the rules say of operators, of variables and of output is what the functions for them give.
-/

namespace Treewalk.Rules

open RuntimeError (Cause)

/-! ## Values and operators -/

theorem falsey_iff {v : Value} : Falsey v ↔ ¬ v.truthy := by
  constructor
  · rintro (_ | _) <;> exact Bool.false_ne_true
  · intro h
    match v, h with
    | .nil, _ => exact .nil
    | .bool false, _ => exact .false
    | .bool true, h | .number _, h | .string _, h => exact absurd rfl h

theorem not_falsey_iff {v : Value} : ¬ Falsey v ↔ v.truthy := by
  rw [falsey_iff, Decidable.not_not]

theorem equal_iff {a b : Value} : Equal a b ↔ a.same b = true := by
  constructor
  · rintro (_ | _ | h | _)
    · rfl
    · exact beq_self_eq_true _
    · exact h
    · exact beq_self_eq_true _
  · intro h
    match a, b, h with
    | .nil, .nil, _ => exact .nil
    | .bool a, .bool b, h => obtain rfl := eq_of_beq h; exact .bool
    | .number x, .number y, h => exact .number h
    | .string s, .string t, h => obtain rfl := eq_of_beq h; exact .string

theorem not_equal_iff {a b : Value} : ¬ Equal a b ↔ a.same b = false := by
  rw [equal_iff, Bool.not_eq_true]

theorem displays_iff {v : Value} {text : String} : Displays v text ↔ v.display = text := by
  constructor
  · rintro (_ | _ | _ | _ | _) <;> rfl
  · rintro rfl
    match v with
    | .nil => exact .nil
    | .bool true => exact .true
    | .bool false => exact .false
    | .number x => exact .number
    | .string s => exact .string

theorem decides_iff {op : LogicalOp} {v : Value} : Decides op v ↔ op.decidedBy v = true := by
  constructor
  · rintro (h | h)
    · simp [LogicalOp.decidedBy, falsey_iff.1 h]
    · exact not_falsey_iff.1 h
  · intro h
    cases op with
    | and => exact .and (falsey_iff.2 (by simpa [LogicalOp.decidedBy] using h))
    | or => exact .or (not_falsey_iff.2 h)

theorem unary_iff {op : UnaryOp} {v : Value} {r : Except Cause Value} :
    Unary op v r ↔ op.apply v = r := by
  constructor
  · rintro (h | h | _ | h)
    · simp [UnaryOp.apply, falsey_iff.1 h]
    · simp [UnaryOp.apply, not_falsey_iff.1 h]
    · rfl
    · cases v with
      | number x => exact absurd rfl (h x)
      | _ => rfl
  · rintro rfl
    cases op with
    | not =>
      cases h : v.truthy with
      | true => simpa [UnaryOp.apply, h] using Unary.notTruthy (not_falsey_iff.2 h)
      | false => simpa [UnaryOp.apply, h] using Unary.notFalsey (falsey_iff.2 (by simp [h]))
    | negate =>
      cases v with
      | number x => exact .negate
      | _ => exact .negateOther nofun

theorem isZero_iff {v : Value} : IsZero v ↔ BinaryOp.isZero v = true := by
  constructor
  · rintro ⟨x, rfl, h⟩
    exact h
  · intro h
    match v, h with
    | .number x, h => exact ⟨x, rfl, h⟩

theorem Counts.exists_value {count : Float} {k : Nat} (h : Counts count k) :
    ∃ v, Number.value? count = some v ∧ 0 ≤ v ∧ ⌊v⌋₊ = k := by
  cases h with
  | @positive size hform =>
    refine ⟨_, Number.value?_eq_some_iff.2 ⟨_, _, hform, rfl⟩, ?_, Number.floor_ofUnits _⟩
    rw [← Number.ofUnits_zero, Number.ofUnits_strictMono.le_iff_le]
    exact Int.natCast_nonneg size.units
  | zero hform hzero =>
    refine ⟨0, Number.value?_eq_some_iff.2 ⟨_, _, hform, ?_⟩, le_refl 0, Nat.floor_zero⟩
    rw [Number.Magnitude.units_eq_zero_iff.2 hzero]
    exact Number.ofUnits_zero

theorem repeatString_of_counts {s : String} {count : Float} {k : Nat} (h : Counts count k) :
    repeatString s count =
      if repeatLimit < s.utf8ByteSize * k then .error .repeatTooLarge
      else .ok (.string (String.join (List.replicate k s))) := by
  obtain ⟨v, hv, hpos, rfl⟩ := h.exists_value
  exact repeatString_of_value s hv hpos

theorem repeatString_of_noCount {s : String} {count : Float} (h : NoCount count) :
    repeatString s count = .error .invalidRepeatCount := by
  apply repeatString_of_invalid
  by_contra hvalid
  obtain ⟨v, hv, hpos⟩ := (valid_iff count).1 hvalid
  obtain ⟨negative, size, hform, rfl⟩ := Number.value?_eq_some_iff.1 hv
  cases h with
  | nan hform' | infinite hform' => cases hform.symm.trans hform'
  | negative hform' hne =>
    cases hform.symm.trans hform'
    exact hne (Number.Magnitude.units_eq_zero_iff.1
      ((Number.positive_or_zero hpos).resolve_left (by decide)))

theorem counts_or_noCount (count : Float) : (∃ k, Counts count k) ∨ NoCount count := by
  cases hform : Number.form count with
  | nan => exact .inr (.nan hform)
  | infinite negative => exact .inr (.infinite hform)
  | finite negative size =>
    cases negative with
    | false => exact .inl ⟨_, .positive hform⟩
    | true =>
      by_cases hzero : size.significand = 0
      · exact .inl ⟨_, .zero hform hzero⟩
      · exact .inr (.negative hform hzero)

theorem repeats_iff {s : String} {count : Float} {r : Except Cause Value} :
    Repeats (some repeatLimit) s count r ↔ repeatString s count = r := by
  constructor
  · rintro (hno | ⟨hcounts, hlimit, hlarge⟩ | ⟨hcounts, hsmall⟩)
    · exact repeatString_of_noCount hno
    · cases hlimit
      rw [repeatString_of_counts hcounts, if_pos hlarge]
    · rw [repeatString_of_counts hcounts, if_neg (Nat.not_lt.2 (hsmall _ rfl))]
  · rintro rfl
    obtain ⟨k, hcounts⟩ | hno := counts_or_noCount count
    · rw [repeatString_of_counts hcounts]
      split
      · next hlarge => exact .tooLarge hcounts rfl hlarge
      · next hsmall =>
        refine .repeated hcounts fun most hmost => ?_
        cases hmost
        exact Nat.not_lt.1 hsmall
    · rw [repeatString_of_noCount hno]
      exact .invalid hno

theorem Arithmetic.apply_eq {op : BinaryOp} {x y : Float} {v : Value} (h : Arithmetic op x y v) :
    ∃ f, op.apply = BinaryOp.onNumbers f ∧ f x y = v := by
  cases h <;> exact ⟨_, rfl, rfl⟩

theorem NotNumbers.onNumbers_eq {a b : Value} (h : NotNumbers a b) (f : Float → Float → Value) :
    BinaryOp.onNumbers f a b = .error .operandsNotNumbers := by
  unfold BinaryOp.onNumbers
  split
  · next x y => exact absurd ⟨rfl, rfl⟩ (h x y)
  · rfl

theorem Binary.apply_eq {op : BinaryOp} {a b : Value} {r : Except Cause Value}
    (h : Binary (some repeatLimit) op a b r) : op.apply a b = r := by
  cases h with
  | arithmetic h =>
    obtain ⟨f, hop, rfl⟩ := h.apply_eq
    rw [hop]
    rfl
  | arithmeticOther h hother =>
    obtain ⟨x, y, v, h⟩ := h
    obtain ⟨f, hop, -⟩ := h.apply_eq
    rw [hop]
    exact hother.onNumbers_eq f
  | sum | concat | concatNumber | numberConcat | product => rfl
  | addOther hnumbers hmixed hstrings =>
    change BinaryOp.sum a b = _
    unfold BinaryOp.sum
    split
    · exact absurd ⟨rfl, rfl⟩ (hnumbers _ _)
    · exact absurd ⟨rfl, rfl⟩ (hstrings _ _)
    · exact absurd (.inl ⟨_, _, rfl, rfl⟩) hmixed
    · exact absurd (.inr ⟨_, _, rfl, rfl⟩) hmixed
    · rfl
  | repeated h => exact repeats_iff.1 h
  | repeatedLeft h => exact repeats_iff.1 h
  | multiplyOther hnumbers hmixed =>
    change BinaryOp.product a b = _
    unfold BinaryOp.product
    split
    · exact absurd ⟨rfl, rfl⟩ (hnumbers _ _)
    · exact absurd (.inl ⟨_, _, rfl, rfl⟩) hmixed
    · exact absurd (.inr ⟨_, _, rfl, rfl⟩) hmixed
    · rfl
  | byZero h => exact if_pos (isZero_iff.1 h)
  | quotient h => exact if_neg (mt isZero_iff.2 h)
  | divideOther h hnumbers => exact (if_neg (mt isZero_iff.2 h)).trans (hnumbers.onNumbers_eq _)
  | equal h | notUnequal h => simp [BinaryOp.apply, equal_iff.1 h]
  | unequal h | notEqual h => simp [BinaryOp.apply, not_equal_iff.1 h]

theorem binary_onNumbers {op : BinaryOp} {f : Float → Float → Value}
    (h : ∀ x y, Arithmetic op x y (f x y)) (a b : Value) :
    Binary (some repeatLimit) op a b (BinaryOp.onNumbers f a b) := by
  unfold BinaryOp.onNumbers
  split
  · exact .arithmetic (h _ _)
  · next hother => exact .arithmeticOther ⟨0, 0, _, h 0 0⟩ fun x y ⟨ha, hb⟩ => hother x y ha hb

theorem binary_apply (op : BinaryOp) (a b : Value) :
    Binary (some repeatLimit) op a b (op.apply a b) := by
  cases op with
  | add =>
    change Binary _ _ _ _ (BinaryOp.sum a b)
    unfold BinaryOp.sum
    split
    · exact .sum
    · exact .concat
    · exact .concatNumber
    · exact .numberConcat
    · next hnumbers hstrings hright hleft =>
      refine .addOther (fun x y ⟨ha, hb⟩ => hnumbers x y ha hb) ?_
        fun s t ⟨ha, hb⟩ => hstrings s t ha hb
      rintro (⟨s, x, ha, hb⟩ | ⟨x, s, ha, hb⟩)
      · exact hright s x ha hb
      · exact hleft x s ha hb
  | multiply =>
    change Binary _ _ _ _ (BinaryOp.product a b)
    unfold BinaryOp.product
    split
    · exact .product
    · exact .repeated (repeats_iff.2 rfl)
    · exact .repeatedLeft (repeats_iff.2 rfl)
    · next hnumbers hright hleft =>
      refine .multiplyOther (fun x y ⟨ha, hb⟩ => hnumbers x y ha hb) ?_
      rintro (⟨s, x, ha, hb⟩ | ⟨x, s, ha, hb⟩)
      · exact hright s x ha hb
      · exact hleft x s ha hb
  | divide =>
    change Binary _ _ _ _ (BinaryOp.quotient a b)
    unfold BinaryOp.quotient
    split
    · next hzero => exact .byZero (isZero_iff.2 hzero)
    · next hzero =>
      have hzero : ¬ IsZero b := mt isZero_iff.1 hzero
      unfold BinaryOp.onNumbers
      split
      · exact .quotient hzero
      · next hnumbers => exact .divideOther hzero fun x y ⟨ha, hb⟩ => hnumbers x y ha hb
  | equal =>
    change Binary _ _ _ _ (.ok (.bool (a.same b)))
    cases h : a.same b with
    | true => exact .equal (equal_iff.2 h)
    | false => exact .unequal (not_equal_iff.2 h)
  | notEqual =>
    change Binary _ _ _ _ (.ok (.bool !a.same b))
    cases h : a.same b with
    | true => exact .notUnequal (equal_iff.2 h)
    | false => exact .notEqual (not_equal_iff.2 h)
  | subtract => exact binary_onNumbers (fun _ _ => .subtract) a b
  | greater => exact binary_onNumbers (fun _ _ => .greater) a b
  | greaterEqual => exact binary_onNumbers (fun _ _ => .greaterEqual) a b
  | less => exact binary_onNumbers (fun _ _ => .less) a b
  | lessEqual => exact binary_onNumbers (fun _ _ => .lessEqual) a b

/-! ## Variables -/

theorem frames_injective {env env' : Environment} (h : env.frames = env'.frames) : env = env' := by
  obtain ⟨inner, globals⟩ := env
  obtain ⟨inner', globals'⟩ := env'
  obtain ⟨rfl, hlast⟩ := List.append_inj' h rfl
  cases hlast
  rfl

theorem Undefined.get?_eq {x : String} {env : Environment} (h : Undefined x env) :
    env.get? x = none := by
  refine List.findSome?_eq_none_iff.2 fun frame hframe => ?_
  simpa [Frame.has] using h frame hframe

theorem Innermost.get?_eq {x : String} {env : Environment} {inner outer : List Frame} {frame : Frame}
    (h : Innermost x env.frames inner frame outer) : env.get? x = Frame.find? x frame := by
  have hinside : inner.findSome? (Frame.find? x) = none :=
    List.findSome?_eq_none_iff.2 fun other hother => by simpa [Frame.has] using h.inside other hother
  obtain ⟨v, hv⟩ := Option.isSome_iff_exists.1 h.defines
  rw [Environment.get?, h.split, List.findSome?_append, hinside, List.findSome?_cons, hv]
  rfl

theorem innermost_or_undefined (x : String) (env : Environment) :
    (∃ inner frame outer, Innermost x env.frames inner frame outer) ∨ Undefined x env := by
  unfold Undefined
  induction env.frames with
  | nil => exact .inr nofun
  | cons frame frames ih =>
    by_cases hhas : Frame.has x frame
    · exact .inl ⟨[], frame, frames, rfl, hhas, nofun⟩
    · obtain ⟨inner, found, outer, h⟩ | h := ih
      · refine .inl ⟨frame :: inner, found, outer, ?_, h.defines, ?_⟩
        · rw [h.split, List.cons_append]
        · exact List.forall_mem_cons.2 ⟨hhas, h.inside⟩
      · exact .inr (List.forall_mem_cons.2 ⟨hhas, h⟩)

theorem assignFirst?_frames (x : String) (v : Value) (env : Environment) :
    Frame.assignFirst? x v env.frames = (env.assign? x v).map Environment.frames := by
  rw [Environment.frames, Frame.assignFirst?_append, Environment.assign?]
  cases Frame.assignFirst? x v env.inner with
  | some inner => rfl
  | none =>
    by_cases hhas : Frame.has x env.globals <;>
      simp [Frame.assignFirst?, hhas, Environment.frames]

theorem Innermost.assignFirst?_eq {x : String} {frames inner outer : List Frame} {frame : Frame}
    (h : Innermost x frames inner frame outer) (v : Value) :
    Frame.assignFirst? x v frames = some (inner ++ Frame.put x v frame :: outer) := by
  obtain ⟨rfl, hdefines, hinside⟩ := h
  induction inner with
  | nil => rw [List.nil_append, Frame.assignFirst?, if_pos hdefines, List.nil_append]
  | cons other inner ih =>
    obtain ⟨hother, hinner⟩ := List.forall_mem_cons.1 hinside
    rw [List.cons_append, Frame.assignFirst?, if_neg hother, ih hinner]
    rfl

theorem undefined_of_assign? {x : String} {v : Value} {env : Environment}
    (h : env.assign? x v = none) : Undefined x env := by
  obtain ⟨inner, frame, outer, hinner⟩ | hundefined := innermost_or_undefined x env
  · have hfirst := hinner.assignFirst?_eq v
    rw [assignFirst?_frames, h] at hfirst
    cases hfirst
  · exact hundefined

theorem Undefined.assign?_eq {x : String} {env : Environment} (h : Undefined x env) (v : Value) :
    env.assign? x v = none := by
  have hframes : Frame.assignFirst? x v env.frames = none := by
    unfold Undefined at h
    generalize env.frames = frames at h
    induction frames with
    | nil => rfl
    | cons frame frames ih =>
      obtain ⟨hframe, hframes⟩ := List.forall_mem_cons.1 h
      rw [Frame.assignFirst?, if_neg hframe, ih hframes]
      rfl
  rw [assignFirst?_frames] at hframes
  exact Option.map_eq_none_iff.1 hframes

theorem assigns_iff {x : String} {v : Value} {env env' : Environment} :
    Assigns x v env env' ↔ env.assign? x v = some env' := by
  constructor
  · rintro ⟨inner, frame, outer, hinner, hframes⟩
    have hfirst := hinner.assignFirst?_eq v
    rw [← hframes, assignFirst?_frames] at hfirst
    obtain ⟨env'', hassign, heq⟩ := Option.map_eq_some_iff.1 hfirst
    rw [hassign, frames_injective heq]
  · intro h
    obtain ⟨inner, frame, outer, hinner⟩ | hundefined := innermost_or_undefined x env
    · have hframes := Environment.frames_assign? h
      rw [hinner.assignFirst?_eq v] at hframes
      exact ⟨inner, frame, outer, hinner, (Option.some.inj hframes).symm⟩
    · rw [hundefined.assign?_eq v] at h
      cases h

theorem binds_iff {x : String} {v : Value} {env env' : Environment} :
    Binds x v env env' ↔ env.define x v = env' := by
  obtain ⟨frame, outer, hframes, hdefine⟩ := Environment.frames_define x v env
  constructor
  · rintro ⟨frame', outer', hframes', hbound⟩
    cases hframes.symm.trans hframes'
    exact frames_injective (hdefine.trans hbound.symm)
  · rintro rfl
    exact ⟨frame, outer, hframes, hdefine⟩

theorem pop_eq_iff {env env' : Environment} (h : 1 < env.frames.length) :
    env.pop = env' ↔ ∃ frame, env.frames = frame :: env'.frames := by
  have hdepth : 1 < env.depth := by simpa [Environment.frames, Environment.depth] using h
  have hpop := Environment.frames_pop hdepth
  constructor
  · rintro rfl
    rw [hpop]
    exact ⟨_, (List.cons_head_tail (List.ne_nil_of_length_pos (by omega))).symm⟩
  · rintro ⟨frame, hframes⟩
    apply frames_injective
    rw [hpop, hframes, List.tail_cons]

/-! ## Output -/

theorem writes_iff {texts : List String} {out out' : Sink} {refused : Option String} :
    Writes texts out refused out' ↔ out.writeAll texts = (refused, out') := by
  constructor
  · intro h
    induction h with
    | nil => rfl
    | taken htaken _ ih => rw [Sink.writeAll, htaken]; exact ih
    | refused hrefused => rw [Sink.writeAll, hrefused]
  · intro h
    induction texts generalizing out with
    | nil => cases h; exact .nil
    | cons text texts ih =>
      unfold Sink.writeAll at h
      split at h
      · next hrefused => cases h; exact .refused hrefused
      · next htaken => exact .taken htaken (ih h)

theorem line_iff {text : String} {texts : List String} :
    Line text texts ↔ (if text = "" then ["\n"] else [text, "\n"]) = texts := by
  constructor
  · rintro (_ | hne)
    · rfl
    · exact if_neg hne
  · rintro rfl
    split
    · next hblank => exact hblank ▸ .blank
    · next hne => exact .text hne

theorem shown_eq_iff {keyword : Token} {v : Value} {env : Environment} {out : Sink}
    {ending : Ending} : State.shown keyword v ⟨env, out⟩ = ending ↔
      ∃ text texts refused out', Displays v text ∧ Line text texts ∧ Writes texts out refused out' ∧
        ending = ⟨refused.map fun reason => ⟨keyword, .output reason⟩, ⟨env, out'⟩⟩ := by
  simp only [displays_iff, line_iff, writes_iff]
  constructor
  · rintro rfl
    exact ⟨_, _, _, _, rfl, rfl, rfl, rfl⟩
  · rintro ⟨text, texts, refused, out', rfl, rfl, hwrites, rfl⟩
    simp [State.shown, Sink.writeLine, hwrites]

end Treewalk.Rules
