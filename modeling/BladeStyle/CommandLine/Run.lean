import BladeStyle.CommandLine.Folder
import BladeStyle.CommandLine.Options
import BladeStyle.Json

/-!
# Runs of the formatter

A run takes its inputs in order: the files at the given paths or, without any, the
standard input.  The first input that cannot be read or processed ends the run with
status 2; what was done before stays done.  Otherwise the status is 1 if some input was
not formatted as asked or has errors, and 0 if all is well.
-/

namespace BladeStyle.CommandLine

/-- What a run has printed and written, and whether every input was well so far. -/
structure Progress where
  clean : Bool
  stdout : String
  stderr : String
  folder : Folder

/-- What a run leaves behind. -/
structure Report where
  status : Nat
  stdout : String
  stderr : String
  folder : Folder

/-- The report line of a finding in the input `name`. -/
def findingLine (name : String) (f : Finding) : String :=
  let severity := match f.severity with
    | .error => "error"
    | .warning => "warning"
  s!"{name}:{f.path.display}: {severity}[{f.rule}]: {f.message}"

namespace Progress

/-- The progress with a text on standard output. -/
def print (p : Progress) (text : String) : Progress := { p with stdout := p.stdout ++ text }

/-- Processes the style of the input `name`, which has the given text.  The file at
`path`, if there is one, is the input. -/
def onStyle (o : Options) (name : String) (path : Option String) (text : String) (s : Style)
    (p : Progress) : Except FormatError Progress :=
  match o.task with
  | .json => .ok (p.print (s.toJson.pretty 0 ++ "\n"))
  | .lint =>
    let lines := s.findings.map fun f => findingLine name f ++ "\n"
    .ok { p.print (String.join lines) with clean := p.clean && !anyError s.findings }
  | task =>
    (s.format o.format).map fun formatted =>
      let formatted := formatted ++ "\n"
      match task, path with
      | .check, _ =>
        if formatted = text then p
        else { p with clean := false, stderr := p.stderr ++ s!"would reformat {name}\n" }
      | .write, some path =>
        if formatted = text then p
        else { p with folder := p.folder.writeText path formatted }
      | _, _ => p.print formatted

/-- Handles the text of the input `name`. -/
def onText (o : Options) (name : String) (path : Option String) (text : String)
    (p : Progress) : Except String Progress :=
  match Style.parse text with
  | .error e => .error s!"{name}: {e.message}"
  | .ok s =>
    let s := if o.format.keepComments then s else s.withoutComments
    (p.onStyle o name path text s).mapError fun e => s!"{name}: {e.message}"

/-- Handles the file at a path. -/
def onFile (o : Options) (path : String) (p : Progress) : Except String Progress :=
  match p.folder.readText path with
  | .error e => .error s!"Failed to read `{path}`: {e.message}"
  | .ok text => p.onText o path (some path) text

/-- Handles the files at some paths, up to the first failure. -/
def onFiles (o : Options) (p : Progress) : List String → Progress × Option String
  | [] => (p, none)
  | path :: paths =>
    match p.onFile o path with
    | .ok p => onFiles o p paths
    | .error message => (p, some message)

/-- Handles the standard input. -/
def onInput (o : Options) (input : ByteArray) (p : Progress) : Except String Progress :=
  match decode input with
  | .error e => .error s!"Failed to read standard input: {e.message}"
  | .ok text => p.onText o "<stdin>" none text

/-- The report of a run that got this far and may have failed. -/
def report (p : Progress) : Option String → Report
  | some message => ⟨2, p.stdout, p.stderr ++ message ++ "\n", p.folder⟩
  | none => ⟨if p.clean then 0 else 1, p.stdout, p.stderr, p.folder⟩

end Progress

/-- Runs the formatter. -/
def run (o : Options) (input : ByteArray) (folder : Folder) : Report :=
  let start : Progress := ⟨true, "", "", folder⟩
  if o.paths = [] then
    match start.onInput o input with
    | .ok p => p.report none
    | .error message => start.report (some message)
  else
    let (p, failure) := start.onFiles o o.paths
    p.report failure

/-- The line printed for the version. -/
def versionLine : String := "bs-fmt 0.1.0\n"

/-- What the help says about the formatter as a whole. -/
def about : String :=
  "Format, check or inspect blade style expressions.\n\n" ++
  "Each input holds one style, e.g. `StylePtr<Layers<Red, BlastL<White>>>()`.\n" ++
  "Formatted output is written to standard output unless `--write` is given.\n"

/-- What the help says about the paths. -/
def pathsDescription : String :=
  "Style files to process. Standard input is read when none are given."

/-- The text printed for help: what the formatter is for, then the paths and each flag. -/
def helpText : String :=
  let flags := Flag.all.filterMap fun f => f.description?.map fun d => s!"--{f.name}\n    {d}\n"
  about ++ s!"\nPATHS\n    {pathsDescription}\n" ++ String.join flags

/-- What the formatter does when the arguments are not taken any further.  Of arguments
that make no sense the report only has the status. -/
def Stop.report (folder : Folder) : Stop → Report
  | version => ⟨0, versionLine, "", folder⟩
  | help => ⟨0, helpText, "", folder⟩
  | usage _ => ⟨2, "", "", folder⟩

end BladeStyle.CommandLine
