/-!
# What the command line asks for
-/

namespace Treewalk.Cli

/-- Lower case where it is an ASCII letter, which is all that a comparison with ASCII words needs.
Of the characters outside ASCII only the Kelvin sign has such a lower case. -/
def lower (c : Char) : Char := if c = '\u212a' then 'k' else c.toLower

def lowerCase (s : String) : String := .ofList (s.toList.map lower)

inductive ColorChoice where
  | auto | always | never
deriving DecidableEq, Repr

def ColorChoice.ofText (s : String) : Except String ColorChoice :=
  match lowerCase s with
  | "auto" => .ok auto
  | "always" => .ok always
  | "never" => .ok never
  | _ => .error ("Invalid color choice: " ++ s ++ ". Must be 'auto', 'always', or 'never'")

/-- What to show instead of running. -/
inductive DumpStage where
  | tokens | tree
deriving DecidableEq, Repr

def DumpStage.ofText (s : String) : Except String DumpStage :=
  match lowerCase s with
  | "tokens" => .ok tokens
  | "ast" => .ok tree
  | _ => .error ("Invalid dump stage: " ++ s ++ ". Must be 'tokens' or 'ast'")

inductive Shell where
  | bash | elvish | fish | powershell | zsh
deriving DecidableEq, Repr

def Shell.name : Shell → String
  | bash => "bash"
  | elvish => "elvish"
  | fish => "fish"
  | powershell => "powershell"
  | zsh => "zsh"

def Shell.ofText? (s : String) : Option Shell :=
  [bash, elvish, fish, powershell, zsh].find? (·.name = s)

structure Options where
  /-- Without a script there is a prompt. -/
  script : Option String := none
  color : ColorChoice := .auto
  verbose : Bool := false
  dump : Option DumpStage := none
  json : Bool := false
  /-- Print a completion script for a shell. -/
  completion : Option Shell := none
deriving Repr

/-- The switches that a run looks at. -/
structure Config where
  color : Bool
  verbose : Bool
  dump : Option DumpStage
  json : Bool
deriving DecidableEq, Repr

/-- `terminal` says whether both streams are shown on a terminal. -/
def Options.config (terminal : Bool) (o : Options) : Config where
  color := match o.color with
    | .always => true
    | .never => false
    | .auto => terminal
  verbose := o.verbose
  dump := o.dump
  json := o.json

end Treewalk.Cli
