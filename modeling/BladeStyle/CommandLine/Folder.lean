import BladeStyle.Text.Lines

/-!
# Folders

The files that the formatter can see.  A file is found by its path: empty components
and dots make no difference, and a path that leads nowhere but up is a directory.
Contents are bytes, which may or may not be text.
-/

namespace BladeStyle.CommandLine

/-- Why an input cannot be read. -/
inductive ReadError where
  | notFound
  | isDirectory
  | notText
  | other (message : String)
  deriving DecidableEq

/-- The text shown for an error. -/
def ReadError.message : ReadError → String
  | notFound => "No such file or directory (os error 2)"
  | isDirectory => "Is a directory (os error 21)"
  | notText => "stream did not contain valid UTF-8"
  | other message => message

/-- The text that some bytes encode. -/
def decode (bytes : ByteArray) : Except ReadError String :=
  match String.fromUTF8? bytes with
  | some text => .ok text
  | none => .error .notText

/-- The components of a path that make a difference, after an empty one if the path is
absolute. -/
def components (path : String) : List (List Char) :=
  let cs := (Text.parts '/' path.toList).filter fun c => c ≠ [] ∧ c ≠ ['.']
  if path.toList.head? = some '/' then [] :: cs else cs

/-- The files at some paths, or why they cannot be read. -/
structure Folder where
  entries : List (String × Except ReadError ByteArray)

namespace Folder

/-- The contents of the file at a path. -/
def read (f : Folder) (path : String) : Except ReadError ByteArray :=
  match f.entries.find? fun e => components e.1 = components path with
  | some e => e.2
  | none =>
    if (components path).all fun c => c = [] ∨ c = ['.', '.'] then .error .isDirectory
    else .error .notFound

/-- The text of the file at a path. -/
def readText (f : Folder) (path : String) : Except ReadError String :=
  match f.read path with
  | .ok bytes => decode bytes
  | .error e => .error e

/-- The folder with other contents in the file at a path. -/
def writeText (f : Folder) (path : String) (text : String) : Folder where
  entries := f.entries.map fun e =>
    if components e.1 = components path then (e.1, .ok text.toUTF8) else e

end Folder

end BladeStyle.CommandLine
