/-!
# Where a program writes

A sink takes each write whole or refuses it whole, and may decide by what it took before.
-/

namespace Treewalk

structure Sink where
  /-- The writes that were taken, latest first. -/
  taken : List String := []
  /-- Why a write is refused, given the writes taken before it. -/
  refusal? : List String → String → Option String := fun _ _ => none

namespace Sink

/-- Takes nothing more once `lines` newlines were taken. -/
def closingAfter (lines : Nat) (reason : String) : Sink where
  refusal? taken _ :=
    let newlines := taken.foldl (fun n text => n + text.toList.count '\n') 0
    if newlines < lines then none else some reason

/-- Everything that was taken. -/
def contents (out : Sink) : String := String.join out.taken.reverse

/-- Writes in order up to the first that is refused, and gives the reason. -/
def writeAll : List String → Sink → Option String × Sink
  | [], out => (none, out)
  | text :: texts, out =>
    match out.refusal? out.taken text with
    | some reason => (some reason, out)
    | none => writeAll texts { out with taken := text :: out.taken }

/-- The text and the newline are two writes. An empty text is none. -/
def writeLine (text : String) (out : Sink) : Option String × Sink :=
  out.writeAll (if text = "" then ["\n"] else [text, "\n"])

end Sink

end Treewalk
