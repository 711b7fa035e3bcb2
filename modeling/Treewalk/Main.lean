import Treewalk.Cli.Program

/-!
# The command line

Reads files and standard input, and writes what the program says.
-/

namespace Treewalk.Cli

/-- Far beyond what any run can reach. -/
def unbounded : Nat := Nat.pow 2 62

def write (console : Console) : IO Unit := do
  (← IO.getStderr).putStr console.err
  let out ← IO.getStdout
  out.putStr console.out
  out.flush

def finish (exit : Exit) : IO UInt32 := do
  write exit.console
  return exit.code.toUInt32

def readFile (path : String) : IO (Except ReadError ByteArray) := do
  try
    return .ok (← IO.FS.readBinFile ⟨path⟩)
  catch
    | .permissionDenied .. => return .error .notPermitted
    | .invalidArgument .. => return .error .nameTooLong
    | .inappropriateType _ code _ => return .error (if code = 21 then .isFolder else .notFolder)
    | _ => return .error .notFound

/-- A line with its newline, or nothing at the end of the input. -/
partial def readLine (input : IO.FS.Stream) (line : Array UInt8) : IO (List UInt8) := do
  let bytes ← input.read 1
  match bytes.toList with
  | [] => return line.toList
  | b :: _ => if b = 10 then return (line.push b).toList else readLine input (line.push b)

partial def prompts (config : Config) (session : Session) : IO Unit := do
  write (.output promptText)
  let line ← readLine (← IO.getStdin) #[]
  if line.isEmpty then return
  if let some (console, next) := turn unbounded config line session then
    write console
    if let some session := next then prompts config session

end Treewalk.Cli

open Treewalk.Cli in
/-- Runs a script, or prompts for lines. -/
def main (args : List String) : IO UInt32 := do
  let terminal := (← (← IO.getStdout).isTty) && (← (← IO.getStderr).isTty)
  match plan terminal args with
  | .finished exit => finish exit
  | .script config path =>
    match runScript unbounded config path (← readFile path) with
    | some exit => finish exit
    | none => return 1
  | .prompt config =>
    write (promptStart config)
    prompts config {}
    return 0
