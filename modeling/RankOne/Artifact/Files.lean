/-!
# Files

Stored things are read from and written to files. What a computation sees of the
files is a value: the contents of each path, and the directories that exist. A
path is a list of names, the last of which is the name of the file.
-/

namespace RankOne

/-- Why a file cannot be used. -/
inductive FileFault where
  | notFound
  | notText
deriving DecidableEq, Repr

namespace FileFault

/-- The text of a fault. -/
def message : FileFault → String
  | notFound => "No such file or directory (os error 2)"
  | notText => "stream did not contain valid UTF-8"

end FileFault

/-- The path of a file: its directories and its name. -/
abbrev Path := List String

/-- The files that a computation sees. -/
structure Files where
  entries : List (Path × List UInt8) := []
  directories : List Path := [[]]
deriving Repr

namespace Files

/-- The contents of a file. -/
def read (files : Files) (path : Path) : Except FileFault (List UInt8) :=
  match files.entries.lookup path with
  | some bytes => .ok bytes
  | none => .error .notFound

/-- The contents of a file as text. -/
def readText (files : Files) (path : Path) : Except FileFault String := do
  let bytes ← files.read path
  match String.fromUTF8? ⟨bytes.toArray⟩ with
  | some text => return text
  | none => .error .notText

/-- The files after some bytes have been written to a path whose directory
exists. -/
def write (files : Files) (path : Path) (bytes : List UInt8) :
    Except FileFault Files :=
  if path.dropLast ∈ files.directories then
    .ok { files with entries := (path, bytes) :: files.entries }
  else .error .notFound

end Files

end RankOne
