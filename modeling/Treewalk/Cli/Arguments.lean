import Treewalk.Cli.Options
import Treewalk.Text.Similarity

/-!
# Reading the command line

Arguments are read from left to right. The value of an option or the script is kept as it is given,
and looked at only when the next known argument comes or the arguments end. A value that is joined
to its option by `=` is looked at right away. What an option needs beside it is checked last.
-/

namespace Treewalk.Cli

inductive UsageError where
  | unknownArgument
  /-- A value that its option refuses. -/
  | badValue
  /-- No value where there has to be one, or not one of those listed. -/
  | invalidValue
  | missingArgument
  /-- An option that is given twice. -/
  | conflict
  | tooManyValues
  | unknownSubcommand
deriving DecidableEq, Repr

/-- Why reading stopped before there were options. -/
inductive Stop where
  | help
  | version
  | usage (e : UsageError)
deriving DecidableEq, Repr

/-- What can have a value. -/
inductive Slot where
  | script | color | dump
deriving DecidableEq, Repr

/-- How a word of the command line looks. -/
inductive Word where
  /-- `--`, after which nothing is an option. -/
  | separator
  /-- `--name` or `--name=value`. -/
  | long (name : String) (value : Option String)
  /-- `-abc`, one letter an option. -/
  | short (letters : List Char)
  | plain (text : String)
deriving DecidableEq, Repr

def Word.ofText (s : String) : Word :=
  match s.toList with
  | ['-', '-'] => .separator
  | '-' :: '-' :: rest =>
    let name := rest.takeWhile (· ≠ '=')
    let value := match rest.drop name.length with
      | _ :: value => some (String.ofList value)
      | [] => none
    .long (.ofList name) value
  | '-' :: c :: rest => .short (c :: rest)
  | _ => .plain s

def subcommands : List String := ["complete", "help"]

/-- What was read so far. -/
structure Progress where
  options : Options := {}
  /-- The slots that have their value. -/
  filled : List Slot := []
  /-- A slot whose value was not looked at, or has not come. -/
  pending : Option (Slot × Option String) := none

namespace Progress

/-- Gives a slot its value. -/
def fill (p : Progress) (slot : Slot) (value : Option String) : Except Stop Progress := do
  let some text := value | throw (.usage .invalidValue)
  if p.filled.contains slot then throw (.usage .conflict)
  let p := { p with filled := slot :: p.filled }
  match slot with
  | .script =>
    if text = "" then throw (.usage .invalidValue)
    return { p with options.script := some text }
  | .color =>
    match ColorChoice.ofText text with
    | .ok color => return { p with options.color := color }
    | .error _ => throw (.usage .badValue)
  | .dump =>
    match DumpStage.ofText text with
    | .ok dump => return { p with options.dump := some dump }
    | .error _ => throw (.usage .badValue)

/-- Looks at the value that is pending. -/
def settle (p : Progress) : Except Stop Progress :=
  match p.pending with
  | some (slot, value) => { p with pending := none }.fill slot value
  | none => return p

def hasScript (p : Progress) : Bool :=
  p.filled.contains .script || p.pending.any fun (slot, _) => slot = .script

def setVerbose (p : Progress) : Except Stop Progress := do
  let p ← p.settle
  if p.options.verbose then throw (.usage .conflict)
  return { p with options.verbose := true }

def setJson (p : Progress) : Except Stop Progress := do
  let p ← p.settle
  if p.options.json then throw (.usage .conflict)
  return { p with options.json := true }

/-- An option with a value, which may be joined to it. -/
def option (p : Progress) (slot : Slot) (value : Option String) : Except Stop Progress := do
  let p ← p.settle
  match value with
  | some _ => p.fill slot value
  | none => return { p with pending := some (slot, none) }

def long (p : Progress) (name : String) (value : Option String) : Except Stop Progress :=
  let alone (act : Except Stop Progress) : Except Stop Progress :=
    if value.isSome then throw (.usage .tooManyValues) else act
  match name with
  | "color" => p.option .color value
  | "dump" => p.option .dump value
  | "verbose" => alone p.setVerbose
  | "json" => alone p.setJson
  | "help" => alone do let _ ← p.settle; throw .help
  | "version" => alone do let _ ← p.settle; throw .version
  | _ => throw (.usage .unknownArgument)

def short (p : Progress) : List Char → Except Stop Progress
  | [] => return p
  | 'v' :: letters => do (← p.setVerbose).short letters
  | 'h' :: _ => do let _ ← p.settle; throw .help
  | 'V' :: _ => do let _ ← p.settle; throw .version
  | _ => throw (.usage .unknownArgument)

/-- A word that is no option: the script, or one too many. -/
def positional (p : Progress) (afterSeparator : Bool) (text : String) : Except Stop Progress := do
  if p.hasScript then
    let exact := afterSeparator && subcommands.contains text
    let near := subcommands.any fun name => Text.alike text.toList name.toList
    throw (.usage (if near && !exact then .unknownSubcommand else .unknownArgument))
  let p ← p.settle
  return { p with pending := some (.script, some text) }

/-- The end of the arguments. -/
def finish (p : Progress) : Except Stop Options := do
  let o := (← p.settle).options
  if o.dump.isSome && o.script.isNone then throw (.usage .missingArgument)
  if o.json && o.dump.isNone then throw (.usage .missingArgument)
  return o

end Progress

/-! ## Subcommands -/

/-- What follows `help`: at most the name of a subcommand. -/
def helpTopic (args : List String) : Stop :=
  match args with
  | [] => .help
  | [name] => if subcommands.contains name then .help else .usage .unknownSubcommand
  | _ => .usage .unknownSubcommand

/-- The shell that was named, looked at. -/
def settleShell (shell : Option String) : Except Stop Shell :=
  match shell with
  | none => throw (.usage .missingArgument)
  | some text =>
    match Shell.ofText? text with
    | some shell => return shell
    | none => throw (.usage .invalidValue)

/-- Help stops after a look at the shell that was named, if one was. -/
def shellHelp (shell : Option String) : Except Stop Shell := do
  if shell.isSome then let _ ← settleShell shell
  throw .help

def shellAfterSeparator : Option String → List String → Except Stop Shell
  | shell, [] => settleShell shell
  | none, text :: args => shellAfterSeparator (some text) args
  | some _, _ :: _ => throw (.usage .unknownArgument)

/-- What follows `complete`: the name of a shell. -/
def shellArgument : Option String → List String → Except Stop Shell
  | shell, [] => settleShell shell
  | shell, arg :: args =>
    match Word.ofText arg with
    | .separator => shellAfterSeparator shell args
    | .long "help" none => shellHelp shell
    | .long "help" (some _) => throw (.usage .tooManyValues)
    | .short ('h' :: _) => shellHelp shell
    | .long _ _ | .short _ => throw (.usage .unknownArgument)
    | .plain text =>
      match shell with
      | none => shellArgument (some text) args
      | some _ => throw (.usage .unknownArgument)

/-! ## All arguments -/

def afterSeparator (p : Progress) : List String → Except Stop Options
  | [] => p.finish
  | text :: args => do afterSeparator (← p.positional true text) args

def read (p : Progress) : List String → Except Stop Options
  | [] => p.finish
  | arg :: args =>
    match Word.ofText arg with
    | .separator => afterSeparator p args
    | .long name value => do read (← p.long name value) args
    | .short letters => do read (← p.short letters) args
    | .plain text =>
      if let some (slot, none) := p.pending then
        read { p with pending := some (slot, some text) } args
      else if text = "complete" then do
        let shell ← shellArgument none args
        return { ← p.finish with completion := some shell }
      else if text = "help" then throw (helpTopic args)
      else do read (← p.positional false text) args

/-- The options that the arguments give. -/
def parseArguments (args : List String) : Except Stop Options := read {} args

end Treewalk.Cli
