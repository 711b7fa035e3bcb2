import Treewalk.Environment

/-!
# Names and slots

An environment is seen through the names of its frames and through its slots. A slot is a name in
one frame. Here stands what each operation on scopes does to the two.
-/

namespace Treewalk

namespace Frame

def names (frame : Frame) : List String := frame.map Prod.fst

theorem has_iff_mem_names {x : String} {frame : Frame} : has x frame ↔ x ∈ frame.names := by
  induction frame with
  | nil => simp [has, find?, names]
  | cons entry frame ih =>
    by_cases h : entry.1 = x
    · simp [has, find?, names, h]
    · simpa [has, find?, names, h, Ne.symm h] using ih

/-- A name that is there is not added again. -/
def addName (names : List String) (x : String) : List String :=
  if x ∈ names then names else names ++ [x]

theorem prefix_addName (names : List String) (x : String) : names <+: addName names x := by
  unfold addName
  split
  · exact List.prefix_rfl
  · exact List.prefix_append names [x]

theorem prefix_foldl_addName (more names : List String) : names <+: more.foldl addName names := by
  induction more generalizing names with
  | nil => exact List.prefix_rfl
  | cons x more ih => exact (prefix_addName names x).trans (ih (addName names x))

theorem names_put (x : String) (v : Value) (frame : Frame) :
    (put x v frame).names = addName frame.names x := by
  induction frame with
  | nil => rfl
  | cons entry frame ih =>
    by_cases hx : entry.1 = x
    · simp [put, names, addName, hx]
    · have hmem : x ∈ names (entry :: frame) ↔ x ∈ names frame := by
        simp [names, Ne.symm hx]
      simp only [addName, hmem, put, if_neg hx] at ih ⊢
      change entry.1 :: names (put x v frame) = _
      rw [ih]
      split <;> rfl

theorem names_overlay (frame upper : Frame) :
    (overlay frame upper).names = upper.names.foldl addName frame.names := by
  unfold overlay
  induction upper generalizing frame with
  | nil => rfl
  | cons entry upper ih => rw [List.foldl_cons, ih, names_put]; rfl

theorem names_assignFirst? {x : String} {v : Value} {frames frames' : List Frame}
    (h : assignFirst? x v frames = some frames') : frames'.map names = frames.map names := by
  induction frames generalizing frames' with
  | nil => cases h
  | cons frame frames ih =>
    unfold assignFirst? at h
    split at h
    · next hhas =>
      cases h
      rw [List.map_cons, List.map_cons, names_put, addName,
        if_pos (has_iff_mem_names.1 hhas)]
    · obtain ⟨others, hothers, rfl⟩ := Option.map_eq_some_iff.1 h
      rw [List.map_cons, List.map_cons, ih hothers]

theorem find?_assignFirst? {x y : String} (hne : y ≠ x) {v : Value} {frames frames' : List Frame}
    (h : assignFirst? x v frames = some frames') (i : Nat) :
    frames'[i]?.bind (find? y) = frames[i]?.bind (find? y) := by
  induction frames generalizing frames' i with
  | nil => cases h
  | cons frame frames ih =>
    unfold assignFirst? at h
    split at h
    · cases h
      cases i with
      | zero => simpa using find?_put_of_ne hne v frame
      | succ i => rfl
    · obtain ⟨others, hothers, rfl⟩ := Option.map_eq_some_iff.1 h
      cases i with
      | zero => rfl
      | succ i => simpa using ih hothers i

theorem assignFirst?_append {x : String} {v : Value} (frames others : List Frame) :
    assignFirst? x v (frames ++ others) =
      ((assignFirst? x v frames).map (· ++ others)).or
        ((assignFirst? x v others).map (frames ++ ·)) := by
  induction frames with
  | nil => simp [assignFirst?]
  | cons frame frames ih =>
    rw [List.cons_append, assignFirst?, assignFirst?]
    split
    · rfl
    · rw [ih]
      cases assignFirst? x v frames with
      | some _ => rfl
      | none => cases assignFirst? x v others <;> rfl

end Frame

namespace Environment

/-- The names of each frame, innermost first. -/
def names (env : Environment) : List (List String) := env.frames.map Frame.names

/-- The value of a name in the frame that has `i` frames inside it. -/
def slot? (i : Nat) (x : String) (env : Environment) : Option Value :=
  env.frames[i]?.bind (Frame.find? x)

theorem length_names (env : Environment) : env.names.length = env.depth := by
  simp [names, frames, depth]

theorem exists_names_eq (env : Environment) : ∃ inner outer, env.names = inner :: outer := by
  cases h : env.names with
  | nil => simpa [length_names, depth] using congrArg List.length h
  | cons inner outer => exact ⟨inner, outer, rfl⟩

theorem names_bindings {env : Environment} {globals : List String} (h : env.names = [globals]) :
    env.bindings.names = globals.foldl Frame.addName [] := by
  obtain ⟨frame, hframe, rfl⟩ := List.map_eq_singleton_iff.1 h
  rw [bindings, hframe]
  exact Frame.names_overlay [] frame

/-! ## Opening and closing a scope -/

@[simp] theorem names_push (env : Environment) : env.push.names = [] :: env.names := rfl

@[simp] theorem slot?_push (env : Environment) (i : Nat) (x : String) :
    env.push.slot? (i + 1) x = env.slot? i x := rfl

theorem frames_pop {env : Environment} (h : 1 < env.depth) : env.pop.frames = env.frames.tail := by
  obtain ⟨_ | ⟨frame, inner⟩, globals⟩ := env
  · simp [depth] at h
  · rfl

theorem names_pop {env : Environment} (h : 1 < env.depth) : env.pop.names = env.names.tail := by
  rw [names, frames_pop h, List.map_tail, names]

theorem slot?_pop {env : Environment} (h : 1 < env.depth) (i : Nat) (x : String) :
    env.pop.slot? i x = env.slot? (i + 1) x := by
  rw [slot?, frames_pop h, List.getElem?_tail, slot?]

/-! ## Binding a name -/

theorem frames_define (x : String) (v : Value) (env : Environment) : ∃ frame frames,
    env.frames = frame :: frames ∧ (env.define x v).frames = Frame.put x v frame :: frames := by
  obtain ⟨_ | ⟨frame, inner⟩, globals⟩ := env
  · exact ⟨globals, [], rfl, rfl⟩
  · exact ⟨frame, inner ++ [globals], rfl, rfl⟩

theorem names_define (x : String) (v : Value) (env : Environment) : ∃ inner outer,
    env.names = inner :: outer ∧
      (env.define x v).names = Frame.addName inner x :: outer := by
  obtain ⟨frame, frames, hframes, hdefine⟩ := frames_define x v env
  refine ⟨frame.names, frames.map Frame.names, by rw [names, hframes, List.map_cons], ?_⟩
  rw [names, hdefine, List.map_cons, Frame.names_put]

theorem slot?_define {i : Nat} {x y : String} (h : ¬ (i = 0 ∧ y = x)) (v : Value)
    (env : Environment) : (env.define x v).slot? i y = env.slot? i y := by
  obtain ⟨frame, frames, hframes, hdefine⟩ := frames_define x v env
  rw [slot?, slot?, hframes, hdefine]
  cases i with
  | zero => simpa using Frame.find?_put_of_ne (by simpa using h) v frame
  | succ i => rfl

/-! ## Setting a name -/

theorem frames_assign? {x : String} {v : Value} {env env' : Environment}
    (h : env.assign? x v = some env') :
    Frame.assignFirst? x v env.frames = some env'.frames := by
  rw [frames, Frame.assignFirst?_append]
  unfold assign? at h
  split at h
  · next inner hinner => cases h; rw [hinner]; rfl
  · next hinner =>
    rw [hinner]
    split at h
    · next hhas => cases h; simp [Frame.assignFirst?, hhas, frames]
    · cases h

theorem names_assign? {x : String} {v : Value} {env env' : Environment}
    (h : env.assign? x v = some env') : env'.names = env.names :=
  Frame.names_assignFirst? (frames_assign? h)

theorem slot?_assign? {x y : String} (hne : y ≠ x) {v : Value} {env env' : Environment}
    (h : env.assign? x v = some env') (i : Nat) : env'.slot? i y = env.slot? i y :=
  Frame.find?_assignFirst? hne (frames_assign? h) i

end Environment

end Treewalk
