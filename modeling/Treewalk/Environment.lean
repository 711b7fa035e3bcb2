import Treewalk.Value

/-!
# Variables in scopes

A frame holds the variables of one scope in the order in which they came. An environment is a
stack of frames. The frame of the globals is at the bottom and stays.
-/

namespace Treewalk

abbrev Frame := List (String × Value)

namespace Frame

def find? (name : String) : Frame → Option Value
  | [] => none
  | (n, v) :: frame => if n = name then some v else find? name frame

def has (name : String) (frame : Frame) : Bool := (find? name frame).isSome

/-- A name that is there keeps its place. A new one comes last. -/
def put (name : String) (v : Value) : Frame → Frame
  | [] => [(name, v)]
  | (n, w) :: frame => if n = name then (n, v) :: frame else (n, w) :: put name v frame

@[simp] theorem find?_put_self (name : String) (v : Value) (frame : Frame) :
    find? name (put name v frame) = some v := by
  induction frame with
  | nil => simp [put, find?]
  | cons entry frame ih => by_cases h : entry.1 = name <;> simp [put, find?, h, ih]

theorem find?_put_of_ne {name other : String} (h : other ≠ name) (v : Value) (frame : Frame) :
    find? other (put name v frame) = find? other frame := by
  induction frame with
  | nil => simp [put, find?, Ne.symm h]
  | cons entry frame ih =>
    by_cases hn : entry.1 = name
    · simp [put, find?, hn, Ne.symm h]
    · simp [put, find?, hn, ih]

/-- Puts every entry of `upper` into `frame`. -/
def overlay (frame upper : Frame) : Frame := upper.foldl (fun frame (n, v) => put n v frame) frame

/-- Sets `name` in the first frame that has it. -/
def assignFirst? (name : String) (v : Value) : List Frame → Option (List Frame)
  | [] => none
  | frame :: frames =>
    if has name frame then some (put name v frame :: frames)
    else (assignFirst? name v frames).map (frame :: ·)

end Frame

structure Environment where
  /-- The scopes that are open, innermost first. -/
  inner : List Frame
  globals : Frame

namespace Environment

def empty : Environment := ⟨[], []⟩

/-- All frames, innermost first. -/
def frames (env : Environment) : List Frame := env.inner ++ [env.globals]

def depth (env : Environment) : Nat := env.inner.length + 1

def push (env : Environment) : Environment := { env with inner := [] :: env.inner }

def pop (env : Environment) : Environment := { env with inner := env.inner.tail }

/-- Binds a name in the innermost frame. -/
def define (name : String) (v : Value) (env : Environment) : Environment :=
  match env.inner with
  | [] => { env with globals := Frame.put name v env.globals }
  | frame :: frames => { env with inner := Frame.put name v frame :: frames }

/-- The value in the innermost frame that has the name. -/
def get? (name : String) (env : Environment) : Option Value :=
  env.frames.findSome? (Frame.find? name)

/-- Sets a name in the innermost frame that has it. -/
def assign? (name : String) (v : Value) (env : Environment) : Option Environment :=
  match Frame.assignFirst? name v env.inner with
  | some inner => some { env with inner }
  | none =>
    if Frame.has name env.globals then some { env with globals := Frame.put name v env.globals }
    else none

/-- Every name that can be seen, with its value. A name stands where its outermost frame has
it. -/
def bindings (env : Environment) : Frame := env.frames.reverse.foldl Frame.overlay []

end Environment

end Treewalk
