/-!
# Where scripts are read from

A folder of files and of empty folders, so that the program can be run without a disk.
-/

namespace Treewalk.Cli

/-- Why a file cannot be read. -/
inductive ReadError where
  | notFound
  | notFolder
  | isFolder
  | notPermitted
  | nameTooLong
  | notText
deriving DecidableEq, Repr

def ReadError.message : ReadError → String
  | notFound => "No such file or directory (os error 2)"
  | notFolder => "Not a directory (os error 20)"
  | isFolder => "Is a directory (os error 21)"
  | notPermitted => "Permission denied (os error 13)"
  | nameTooLong => "File name too long (os error 36)"
  | notText => "stream did not contain valid UTF-8"

structure Folder where
  files : List (String × ByteArray) := []
  folders : List String := []

namespace Folder

/-- A place on the way along a path. -/
inductive Place where
  | here
  /-- In one of the empty folders. -/
  | inside
  /-- Above the folder, where nothing is known to be but folders. -/
  | above

/-- The most bytes that a name may have. -/
def nameLimit : Nat := 255

/-- The most bytes that a path may have. -/
def pathLimit : Nat := 4095

/-- Follows the parts of a path. A name is looked at only when the path comes to it. -/
def follow (f : Folder) : Place → List String → Except ReadError ByteArray
  | _, [] => .error .isFolder
  | place, "" :: path => f.follow place path
  | place, "." :: path => f.follow place path
  | .inside, ".." :: path => f.follow .here path
  | _, ".." :: path => f.follow .above path
  | place, name :: path =>
    if nameLimit < name.utf8ByteSize then .error .nameTooLong
    else
      match place, f.files.lookup name with
      | .here, some content => if path.isEmpty then .ok content else .error .notFolder
      | .here, none =>
        if f.folders.contains name then f.follow .inside path else .error .notFound
      | _, _ => .error .notFound

def read (f : Folder) (path : String) : Except ReadError ByteArray :=
  if pathLimit < path.utf8ByteSize then .error .nameTooLong
  else f.follow (if path.startsWith "/" then .above else .here) (path.splitOn "/")

end Folder

/-- The text in a file. -/
def decode (content : ByteArray) : Except ReadError String :=
  match String.fromUTF8? content with
  | some text => .ok text
  | none => .error .notText

end Treewalk.Cli
