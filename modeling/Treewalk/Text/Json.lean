import Treewalk.Number.Display

/-!
# JSON texts

Strings and numbers as JSON writes them on one line.
-/

namespace Treewalk.Text.Json

/-- A character inside a string. Quotes, backslashes and control characters are escaped. -/
def escape (c : Char) : List Char :=
  match c with
  | '"' => ['\\', '"']
  | '\\' => ['\\', '\\']
  | '\x08' => ['\\', 'b']
  | '\x09' => ['\\', 't']
  | '\x0a' => ['\\', 'n']
  | '\x0c' => ['\\', 'f']
  | '\x0d' => ['\\', 'r']
  | c =>
    if c.toNat < 0x20 then
      ['\\', 'u', '0', '0', Nat.digitChar (c.toNat / 16), Nat.digitChar (c.toNat % 16)]
    else [c]

def string (s : String) : String := "\"" ++ .ofList (s.toList.flatMap escape) ++ "\""

/-- An exponent from `1e+16` up and below `1e-5`. -/
def layout : Number.Layout := { least := -5, most := 15, plus := ['+'], tie := .even }

/-- JSON has no infinities: they are `null`. -/
def number (x : Float) : String :=
  match Number.form x with
  | .nan | .infinite _ => "null"
  | .finite negative m => Number.signed negative (layout.write m)

/-- An object, with its fields in the order given. -/
def object (fields : List (String × String)) : String :=
  let written := fields.map fun (key, value) => string key ++ ":" ++ value
  "\x7b" ++ String.intercalate "," written ++ "\x7d"

end Treewalk.Text.Json
