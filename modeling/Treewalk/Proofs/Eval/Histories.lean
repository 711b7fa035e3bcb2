import Treewalk.Proofs.Eval.Primitives

/-!
# Environments after any history

Whatever was done to an environment, its frames name each variable once, so looking a name up,
setting it and listing all names agree. What is done inside a scope leaves the frames around it
their names, and their values but where a name was set that nothing inside had.
-/

namespace Treewalk

namespace Frame

/-! ## Frames that name each variable once -/

theorem nodup_addName {names : List String} (h : names.Nodup) (x : String) :
    (addName names x).Nodup := by
  unfold addName
  split
  · exact h
  · next hx =>
    refine List.nodup_append.2 ⟨h, by simp, fun a ha b hb => ?_⟩
    rw [List.mem_singleton] at hb
    exact fun heq => hx (hb ▸ heq ▸ ha)

theorem nodup_foldl_addName {names : List String} (h : names.Nodup) (more : List String) :
    (more.foldl addName names).Nodup := by
  induction more generalizing names with
  | nil => exact h
  | cons x more ih => exact ih (nodup_addName h x)

theorem foldl_addName_eq_eraseDups (more names : List String) :
    more.foldl addName names.eraseDups = (names ++ more).eraseDups := by
  induction more generalizing names with
  | nil => rw [List.append_nil]; rfl
  | cons x more ih =>
    have hfirst : addName names.eraseDups x = (names ++ [x]).eraseDups := by
      rw [List.eraseDups_append, addName]
      by_cases hx : x ∈ names <;> simp [List.mem_eraseDups, List.removeAll, hx, List.eraseDups_cons]
    rw [List.foldl_cons, hfirst, ih, List.append_assoc, List.singleton_append]

theorem find?_eq_none_iff {x : String} {frame : Frame} :
    find? x frame = none ↔ x ∉ frame.names := by
  rw [← has_iff_mem_names, has, Bool.not_eq_true, Option.isSome_eq_false_iff,
    Option.isNone_iff_eq_none]

theorem mem_iff_find? {x : String} {v : Value} {frame : Frame} (h : frame.names.Nodup) :
    (x, v) ∈ frame ↔ find? x frame = some v := by
  induction frame with
  | nil => simp [find?]
  | cons entry frame ih =>
    obtain ⟨y, w⟩ := entry
    obtain ⟨hy, hframe⟩ := List.nodup_cons.1 h
    rw [List.mem_cons, ih hframe, find?, Prod.mk.injEq]
    by_cases hyx : y = x
    · have hnone : find? x frame = none := find?_eq_none_iff.2 (hyx ▸ hy)
      simp [hyx, hnone, eq_comm]
    · simp [hyx, Ne.symm hyx]

theorem find?_overlay {upper : Frame} (h : upper.names.Nodup) (x : String) (frame : Frame) :
    find? x (overlay frame upper) = (find? x upper).or (find? x frame) := by
  unfold overlay
  induction upper generalizing frame with
  | nil => rfl
  | cons entry upper ih =>
    obtain ⟨y, w⟩ := entry
    obtain ⟨hy, hupper⟩ := List.nodup_cons.1 h
    rw [List.foldl_cons, ih hupper, find?]
    by_cases hyx : y = x
    · have hnone : find? x upper = none := find?_eq_none_iff.2 (hyx ▸ hy)
      simp [hyx, hnone]
    · rw [find?_put_of_ne (Ne.symm hyx), if_neg hyx]

theorem find?_foldl_overlay {frames : List Frame} (h : ∀ frame ∈ frames, frame.names.Nodup)
    (x : String) : find? x (frames.reverse.foldl overlay []) = frames.findSome? (find? x) := by
  induction frames with
  | nil => rfl
  | cons frame frames ih =>
    obtain ⟨hframe, hframes⟩ := List.forall_mem_cons.1 h
    rw [List.reverse_cons, List.foldl_append, List.foldl_cons, List.foldl_nil,
      find?_overlay hframe, ih hframes, List.findSome?_cons]
    cases find? x frame <;> rfl

theorem names_foldl_overlay (frames : List Frame) (below : Frame) :
    (frames.foldl overlay below).names = (frames.map names).flatten.foldl addName below.names := by
  induction frames generalizing below with
  | nil => rfl
  | cons frame frames ih =>
    rw [List.foldl_cons, ih, names_overlay, List.map_cons, List.flatten_cons, List.foldl_append]

end Frame

namespace Environment

/-! ## Operations and histories -/

inductive Operation where
  | define (x : String) (v : Value)
  | assign (x : String) (v : Value)
  | push
  | pop

/-- Setting a name that is nowhere changes nothing. -/
def perform (env : Environment) : Operation → Environment
  | .define x v => env.define x v
  | .assign x v => (env.assign? x v).getD env
  | .push => env.push
  | .pop => env.pop

def performAll (env : Environment) (ops : List Operation) : Environment := ops.foldl perform env

/-- Every frame names each variable once. -/
def Distinct (env : Environment) : Prop := ∀ names ∈ env.names, names.Nodup

theorem Distinct.perform {env : Environment} (h : env.Distinct) (op : Operation) :
    (env.perform op).Distinct := by
  cases op with
  | define x v =>
    obtain ⟨inner, outer, hnames, hdefine⟩ := names_define x v env
    rw [Distinct, hnames] at h
    obtain ⟨hinner, houter⟩ := List.forall_mem_cons.1 h
    rw [Distinct, Environment.perform, hdefine]
    exact List.forall_mem_cons.2 ⟨Frame.nodup_addName hinner x, houter⟩
  | assign x v =>
    rw [Distinct, Environment.perform]
    cases hassign : env.assign? x v with
    | none => exact h
    | some env' => rw [Option.getD_some, names_assign? hassign]; exact h
  | push => exact List.forall_mem_cons.2 ⟨List.nodup_nil, h⟩
  | pop =>
    by_cases hdepth : 1 < env.depth
    · rw [Distinct, Environment.perform, names_pop hdepth]
      exact fun names hnames => h names (List.mem_of_mem_tail hnames)
    · have hsame : env.pop = env := by
        obtain ⟨_ | ⟨frame, inner⟩, globals⟩ := env
        · rfl
        · simp [depth] at hdepth
      rw [Environment.perform, hsame]
      exact h

theorem Distinct.performAll {env : Environment} (h : env.Distinct) (ops : List Operation) :
    (env.performAll ops).Distinct := by
  induction ops generalizing env with
  | nil => exact h
  | cons op ops ih => exact ih (h.perform op)

theorem distinct_empty : empty.Distinct := by simp [Distinct, names, frames, empty, Frame.names]

/-! ## Listing all names -/

/-- The names of all frames, read from the outermost frame in. -/
def namesOutsideIn (env : Environment) : List String := env.names.reverse.flatten

theorem names_bindings_eq (env : Environment) :
    env.bindings.names = env.namesOutsideIn.foldl Frame.addName [] := by
  rw [bindings, Frame.names_foldl_overlay, List.map_reverse]
  rfl

theorem nodup_names_bindings (env : Environment) : env.bindings.names.Nodup := by
  rw [names_bindings_eq]
  exact Frame.nodup_foldl_addName List.nodup_nil _

theorem names_bindings_eq_eraseDups (env : Environment) :
    env.bindings.names = env.namesOutsideIn.eraseDups := by
  rw [names_bindings_eq]
  exact Frame.foldl_addName_eq_eraseDups env.namesOutsideIn []

theorem Distinct.mem_bindings_iff {env : Environment} (h : env.Distinct) {x : String} {v : Value} :
    (x, v) ∈ env.bindings ↔ env.get? x = some v := by
  have hframes : ∀ frame ∈ env.frames, frame.names.Nodup := fun frame hframe =>
    h frame.names (List.mem_map_of_mem hframe)
  rw [Frame.mem_iff_find? env.nodup_names_bindings, bindings, Frame.find?_foldl_overlay hframes,
    get?]

/-! ## Setting a name -/

theorem isSome_assign?_iff {env : Environment} {x : String} {v : Value} :
    (env.assign? x v).isSome ↔ (env.get? x).isSome := by
  obtain ⟨inner, frame, outer, h⟩ | h := Rules.innermost_or_undefined x env
  · have hassign := h.assignFirst?_eq v
    rw [Rules.assignFirst?_frames, Option.map_eq_some_iff] at hassign
    obtain ⟨env', henv', -⟩ := hassign
    have hdefines := h.defines
    rw [h.get?_eq, henv']
    exact ⟨fun _ => hdefines, fun _ => rfl⟩
  · rw [h.assign?_eq, h.get?_eq]
    rfl

/-- `i` frames stand inside the innermost frame that has the name. -/
def InnermostSlot (x : String) (env : Environment) (i : Nat) : Prop :=
  (env.slot? i x).isSome ∧ ∀ j < i, env.slot? j x = none

theorem exists_slot_of_assign? {env env' : Environment} {x : String} {v : Value}
    (h : env.assign? x v = some env') :
    ∃ i, env.InnermostSlot x i ∧ env'.slot? i x = some v ∧
      ∀ j y, ¬ (j = i ∧ y = x) → env'.slot? j y = env.slot? j y := by
  obtain ⟨inner, frame, outer, hinner, hframes⟩ := Rules.assigns_iff.2 h
  have hslot (j : Nat) (y : String) :
      env.slot? j y = (inner ++ frame :: outer)[j]?.bind (Frame.find? y) := by
    rw [slot?, hinner.split]
  have hslot' (j : Nat) (y : String) :
      env'.slot? j y = (inner ++ Frame.put x v frame :: outer)[j]?.bind (Frame.find? y) := by
    rw [slot?, hframes]
  refine ⟨inner.length, ⟨?_, fun j hj => ?_⟩, ?_, fun j y hne => ?_⟩
  · have hdefines := hinner.defines
    simpa [hslot, Frame.has] using hdefines
  · rw [hslot, List.getElem?_append_left hj, List.getElem?_eq_getElem hj, Option.bind_some]
    simpa [Frame.has] using hinner.inside inner[j] (List.getElem_mem hj)
  · simp [hslot']
  · by_cases hy : y = x
    · -- Only the slot of the frame that was found is left out.
      rw [hslot, hslot']
      by_cases hj : j < inner.length
      · rw [List.getElem?_append_left hj, List.getElem?_append_left hj]
      · obtain ⟨k, hk⟩ : ∃ k, j - inner.length = k + 1 :=
          ⟨j - inner.length - 1, by have := mt (⟨·, hy⟩) hne; omega⟩
        rw [List.getElem?_append_right (by omega), List.getElem?_append_right (by omega), hk,
          List.getElem?_cons_succ, List.getElem?_cons_succ]
    · exact slot?_assign? hy h j

/-! ## Inside a scope -/

/-- Nothing that stands inside the outermost `d` frames has the name. -/
def FreeInside (d : Nat) (x : String) (env : Environment) : Prop :=
  ∀ j < env.depth - d, env.slot? j x = none

/-- What stays of the outermost `d` frames: their names, and their values but of those names that
`set` speaks of. -/
structure KeepsOuter (d : Nat) (set : String → Prop) (before after : Environment) : Prop where
  names : after.names.drop (after.depth - d) = before.names.drop (before.depth - d)
  slot? : ∀ i x, after.slot? (i + (after.depth - d)) x ≠ before.slot? (i + (before.depth - d)) x →
    set x

theorem KeepsOuter.trans {d : Nat} {set set' : String → Prop} {a b c : Environment}
    (hab : KeepsOuter d set a b) (hbc : KeepsOuter d set' b c) :
    KeepsOuter d (fun x => set x ∨ set' x) a c where
  names := hbc.names.trans hab.names
  slot? i x hne := by
    by_cases hb : b.slot? (i + (b.depth - d)) x = a.slot? (i + (a.depth - d)) x
    · exact .inr (hbc.slot? i x (hb ▸ hne))
    · exact .inl (hab.slot? i x hb)

theorem depth_push (env : Environment) : env.push.depth = env.depth + 1 := rfl

theorem depth_pop {env : Environment} (h : 1 < env.depth) : env.pop.depth = env.depth - 1 := by
  rw [← length_names, ← length_names, names_pop h, List.length_tail]

theorem depth_define (x : String) (v : Value) (env : Environment) :
    (env.define x v).depth = env.depth := by
  obtain ⟨inner, outer, hnames, hdefine⟩ := names_define x v env
  rw [← length_names, ← length_names, hnames, hdefine, List.length_cons, List.length_cons]

theorem depth_assign? {env env' : Environment} {x : String} {v : Value}
    (h : env.assign? x v = some env') : env'.depth = env.depth := by
  rw [← length_names, ← length_names, names_assign? h]

theorem keepsOuter_perform {d : Nat} {env : Environment} {op : Operation} (hd : 1 ≤ d)
    (hbefore : d < env.depth) (hafter : d < (env.perform op).depth) :
    KeepsOuter d (fun x => (∃ v, op = .assign x v) ∧ env.FreeInside d x) env (env.perform op) := by
  obtain ⟨k, hk⟩ : ∃ k, env.depth - d = k + 1 := ⟨env.depth - d - 1, by omega⟩
  cases op with
  | define x v =>
    obtain ⟨inner, outer, hnames, hdefine⟩ := names_define x v env
    constructor
    · rw [perform, depth_define, hk, hnames, hdefine, List.drop_succ_cons, List.drop_succ_cons]
    · intro i y hne
      rw [perform, depth_define, hk] at hne
      exact absurd (slot?_define (by omega) v env) hne
  | assign x v =>
    rw [perform] at hafter ⊢
    cases hassign : env.assign? x v with
    | none => exact ⟨rfl, fun i y hne => absurd rfl hne⟩
    | some env' =>
      rw [Option.getD_some]
      obtain ⟨place, hinnermost, -, hothers⟩ := exists_slot_of_assign? hassign
      constructor
      · rw [depth_assign? hassign, names_assign? hassign]
      · intro i y hne
        rw [depth_assign? hassign] at hne
        by_cases hslot : i + (env.depth - d) = place ∧ y = x
        · obtain ⟨hat, rfl⟩ := hslot
          exact ⟨⟨v, rfl⟩, fun j hj => hinnermost.2 j (by omega)⟩
        · exact absurd (hothers _ y hslot) hne
  | push =>
    have hdepth : env.push.depth - d = (env.depth - d) + 1 := by rw [depth_push]; omega
    constructor
    · rw [perform, hdepth, names_push, List.drop_succ_cons]
    · intro i y hne
      rw [perform, hdepth, ← Nat.add_assoc, slot?_push] at hne
      exact absurd rfl hne
  | pop =>
    have hopen : 1 < env.depth := by omega
    have hdepth : env.pop.depth - d = k := by rw [depth_pop hopen]; omega
    constructor
    · rw [perform, hdepth, hk, names_pop hopen, List.drop_tail]
    · intro i y hne
      rw [perform, hdepth, hk, slot?_pop hopen, Nat.add_assoc] at hne
      exact absurd rfl hne

/-- Some operation of `ops` sets the name while nothing inside the outermost `d` frames has it. -/
def SetsOuter (d : Nat) (env : Environment) (ops : List Operation) (x : String) : Prop :=
  ∃ before v after, ops = before ++ .assign x v :: after ∧
    (env.performAll before).FreeInside d x

/-- Never does an operation close one of the outermost `d` frames. -/
def StaysInside (d : Nat) (env : Environment) (ops : List Operation) : Prop :=
  ∀ part, part <+: ops → d < (env.performAll part).depth

theorem keepsOuter_performAll {d : Nat} {env : Environment} {ops : List Operation} (hd : 1 ≤ d)
    (h : env.StaysInside d ops) :
    KeepsOuter d (env.SetsOuter d ops) env (env.performAll ops) := by
  induction ops generalizing env with
  | nil => exact ⟨rfl, fun i x hne => absurd rfl hne⟩
  | cons op ops ih =>
    have hstart : d < env.depth := h [] List.nil_prefix
    have hfirst : d < (env.perform op).depth := h [op] (by simp)
    have hrest : (env.perform op).StaysInside d ops := fun part hpart =>
      h (op :: part) (List.cons_prefix_cons.2 ⟨rfl, hpart⟩)
    have hboth := (keepsOuter_perform hd hstart hfirst).trans (ih hrest)
    refine ⟨hboth.names, fun i x hne => ?_⟩
    obtain ⟨⟨v, rfl⟩, hfree⟩ | ⟨before, v, after, rfl, hfree⟩ := hboth.slot? i x hne
    · exact ⟨[], v, ops, rfl, hfree⟩
    · exact ⟨op :: before, v, after, rfl, hfree⟩

end Environment

open Environment

/-- After any history, all ways to look at an environment agree, and a scope that is opened, used
and closed leaves the frames around it as they were but for names that were set. -/
theorem histories_respect_scopes (history : List Operation) :
    let env := empty.performAll history
    1 ≤ env.depth ∧
    env.bindings.names.Nodup ∧
    (∀ x v, (x, v) ∈ env.bindings ↔ env.get? x = some v) ∧
    env.bindings.names = env.names.reverse.flatten.eraseDups ∧
    (∀ x v, (env.assign? x v).isSome ↔ (env.get? x).isSome) ∧
    (∀ x v after, env.assign? x v = some after →
      after.depth = env.depth ∧ after.names = env.names ∧
      ∃ i, env.InnermostSlot x i ∧ after.slot? i x = some v ∧
        ∀ j y, ¬ (j = i ∧ y = x) → after.slot? j y = env.slot? j y) ∧
    (∀ x v, env.assign? x v = none → env.perform (.assign x v) = env) ∧
    ∀ body, (∀ part, part <+: body → env.depth < (env.push.performAll part).depth) →
      (env.push.performAll body).depth = env.push.depth →
      (env.push.performAll body).pop.names = env.names ∧
      ∀ i x, (env.push.performAll body).pop.slot? i x ≠ env.slot? i x →
        ∃ before v after, body = before ++ .assign x v :: after ∧
          ∀ j < (env.push.performAll before).depth - env.depth,
            (env.push.performAll before).slot? j x = none := by
  intro env
  have hdistinct : env.Distinct := distinct_empty.performAll history
  have hdepth : 1 ≤ env.depth := Nat.le_add_left 1 _
  refine ⟨hdepth, env.nodup_names_bindings, fun x v => hdistinct.mem_bindings_iff,
    env.names_bindings_eq_eraseDups, fun x v => isSome_assign?_iff, fun x v after hassign => ?_,
    fun x v hassign => ?_, fun body hinside hbalanced => ?_⟩
  · exact ⟨depth_assign? hassign, names_assign? hassign, exists_slot_of_assign? hassign⟩
  · rw [perform, hassign, Option.getD_none]
  · have hkeeps := keepsOuter_performAll hdepth hinside
    have hopen : 1 < (env.push.performAll body).depth := by rw [hbalanced, depth_push]; omega
    have hone : (env.push.performAll body).depth - env.depth = 1 := by
      rw [hbalanced, depth_push]; omega
    have hpushed : env.push.depth - env.depth = 1 := by rw [depth_push]; omega
    constructor
    · have hnames := hkeeps.names
      rw [hone, hpushed, names_push] at hnames
      rw [names_pop hopen, ← List.drop_one, hnames]
      rfl
    · intro i x hne
      refine hkeeps.slot? i x ?_
      rw [hone, hpushed, slot?_push, ← slot?_pop hopen]
      exact hne

/-- The inner `a` is set twice and the outer one once, while nothing inside has it. -/
theorem histories_respect_scopes_shadowed :
    let env := empty.performAll [.define "a" .nil, .define "b" .nil]
    let body := [.assign "a" (.bool true), .define "a" .nil, .push, .assign "a" (.bool false),
      .define "c" .nil, .pop, .assign "a" .nil]
    (env.push.performAll body).pop.names = [["a", "b"]] ∧
      env.slot? 0 "a" = some .nil ∧ (env.push.performAll body).pop.slot? 0 "a" = some (.bool true) ∧
      (env.push.performAll body).pop.slot? 0 "b" = env.slot? 0 "b" := by
  intro env body
  have hinside : ∀ part, part <+: body → env.depth < (env.push.performAll part).depth := by
    simp only [body, List.prefix_cons_iff, List.prefix_nil]
    rintro part (rfl | ⟨_, rfl, rfl | ⟨_, rfl, rfl | ⟨_, rfl, rfl | ⟨_, rfl, rfl | ⟨_, rfl,
      rfl | ⟨_, rfl, rfl | ⟨_, rfl, rfl⟩⟩⟩⟩⟩⟩⟩) <;> decide
  obtain ⟨-, -, -, -, -, -, -, hscope⟩ :=
    histories_respect_scopes [.define "a" .nil, .define "b" .nil]
  obtain ⟨hnames, hslots⟩ := hscope body hinside rfl
  refine ⟨hnames, rfl, rfl, Classical.byContradiction fun hne => ?_⟩
  -- No assignment of the body is to `b`.
  obtain ⟨before, v, after, hbody, -⟩ := hslots 0 "b" hne
  have hmem : .assign "b" v ∈ body := hbody ▸ by simp
  simp [body] at hmem

end Treewalk
