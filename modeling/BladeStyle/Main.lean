import BladeStyle.CommandLine.Run

/-!
# The formatter as a program

Reads the inputs that the arguments name, runs the formatter on them, and writes back
the files that it changed.
-/

namespace BladeStyle.CommandLine

/-- Reads the file at a path. -/
def readEntry (path : String) : IO (String × Except ReadError ByteArray) := do
  try
    return (path, .ok (← IO.FS.readBinFile path))
  catch e =>
    let error := match e with
      | .noFileOrDirectory .. => ReadError.notFound
      | .inappropriateType .. => ReadError.isDirectory
      | e => ReadError.other (toString e)
    return (path, .error error)

/-- Reads the standard input to its end. -/
def readInput : IO ByteArray := do
  let stream ← IO.getStdin
  let mut bytes := ByteArray.empty
  repeat
    let chunk ← stream.read 65536
    if chunk.isEmpty then
      break
    bytes := bytes ++ chunk
  return bytes

/-- Writes back the files whose contents have changed.  Tells whether all could be
written. -/
def writeBack (before after : Folder) : IO Bool := do
  let mut written := true
  for ((path, old), (_, new)) in before.entries.zip after.entries do
    if let .ok new := new then
      if old.toOption.map (·.data) ≠ some new.data then
        try
          IO.FS.writeBinFile path new
        catch e =>
          IO.eprintln s!"Failed to write file `{path}`: {e}"
          written := false
  return written

/-- Runs the formatter on real files. -/
def runOnFiles (arguments : List String) : IO UInt32 := do
  match Options.ofArguments? arguments with
  | .error stop => finish ⟨[]⟩ (stop.report ⟨[]⟩)
  | .ok o =>
    let input ← if o.paths.isEmpty then readInput else pure ByteArray.empty
    let folder : Folder := ⟨← o.paths.mapM readEntry⟩
    finish folder (run o input folder)
where
  finish (before : Folder) (report : Report) : IO UInt32 := do
    let written ← writeBack before report.folder
    IO.print report.stdout
    IO.eprint report.stderr
    return if written then report.status.toUInt32 else 2

end BladeStyle.CommandLine

/-- The program. -/
def main (arguments : List String) : IO UInt32 := BladeStyle.CommandLine.runOnFiles arguments
