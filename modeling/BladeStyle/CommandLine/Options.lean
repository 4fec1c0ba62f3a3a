import BladeStyle.Formatting

/-!
# Command line options

The arguments of the formatter are flags and paths in any order.  They are taken from
left to right: the first one that is wrong, or that asks for the version or for help,
decides.  Flags that exclude each other are noticed at the end.  After `--` everything
is a path, and so is a single `-`.
-/

namespace BladeStyle.CommandLine

/-- A flag. -/
inductive Flag where
  | check
  | write
  | stripComments
  | compact
  | allowIncomplete
  | json
  | lint
  | version
  | help
  deriving DecidableEq

namespace Flag

/-- The long name of a flag. -/
def name : Flag → String
  | check => "check"
  | write => "write"
  | stripComments => "strip-comments"
  | compact => "compact"
  | allowIncomplete => "allow-incomplete"
  | json => "json"
  | lint => "lint"
  | version => "version"
  | help => "help"

def all : List Flag :=
  [check, write, stripComments, compact, allowIncomplete, json, lint, version, help]

/-- What the help says about a flag. -/
def description? : Flag → Option String
  | check =>
    some "Exit with status 1 if any input is not already formatted. Nothing is written."
  | write => some "Rewrite files in place instead of printing them."
  | stripComments => some "Drop every comment from the output."
  | compact => some "Write each style on a single line."
  | allowIncomplete =>
    some <| "Emit styles even when lint reports errors " ++
      "(emitting still fails on empty slots)."
  | json => some "Print the parsed tree as JSON instead of formatting it."
  | lint =>
    some "Print lint diagnostics instead of formatting. Exits with status 1 on errors."
  | version | help => none

/-- The flag with a long name. -/
def ofName? (name : List Char) : Option Flag := all.find? fun f => f.name.toList = name

/-- The flag with a short name. -/
def ofChar? : Char → Option Flag
  | 'w' => some write
  | 'V' => some version
  | 'h' => some help
  | _ => none

/-- The flags that exclude each other. -/
def conflicts : List (Flag × Flag) :=
  [(check, write), (check, json), (check, lint), (json, write), (json, lint), (lint, write)]

end Flag

/-- Why arguments make no sense. -/
inductive UsageError where
  | unexpected (argument : String)
  | repeated (flag : Flag)
  | emptyPath
  | conflict (first second : Flag)
  deriving DecidableEq

/-- Why the arguments are not taken any further. -/
inductive Stop where
  | usage (error : UsageError)
  | version
  | help
  deriving DecidableEq

/-- The flags and paths met so far. -/
structure Given where
  flags : List Flag
  paths : List String

namespace Given

/-- Takes a flag, unless it was given before or is answered at once. -/
def addFlag (g : Given) (f : Flag) : Except Stop Given :=
  if f = .version then .error .version
  else if f = .help then .error .help
  else if f ∈ g.flags then .error (.usage (.repeated f))
  else .ok { g with flags := g.flags ++ [f] }

/-- Takes the short flags of one argument. -/
def addShort (argument : String) (g : Given) : List Char → Except Stop Given
  | [] => .ok g
  | c :: cs =>
    match Flag.ofChar? c with
    | none => .error (.usage (.unexpected argument))
    | some f =>
      match g.addFlag f with
      | .error stop => .error stop
      | .ok g => addShort argument g cs

/-- Takes a path. -/
def addPath (g : Given) (path : String) : Except Stop Given :=
  if path = "" then .error (.usage .emptyPath) else .ok { g with paths := g.paths ++ [path] }

/-- Takes an argument before `--`. -/
def add (g : Given) (argument : String) : Except Stop Given :=
  match argument.toList with
  | '-' :: '-' :: name =>
    match Flag.ofName? name with
    | some f => g.addFlag f
    | none => .error (.usage (.unexpected argument))
  | '-' :: c :: cs => addShort argument g (c :: cs)
  | _ => g.addPath argument

/-- Takes all arguments. -/
def addAll (g : Given) : List String → Except Stop Given
  | [] => .ok g
  | argument :: arguments =>
    if argument = "--" then arguments.foldlM addPath g
    else
      match g.add argument with
      | .error stop => .error stop
      | .ok g => addAll g arguments

end Given

/-- What is done with an input. -/
inductive Task where
  | print
  | check
  | write
  | json
  | lint
  deriving DecidableEq

/-- What the arguments ask for. -/
structure Options where
  task : Task
  format : FormatOptions
  paths : List String

namespace Options

/-- The options of flags that do not exclude each other. -/
def ofGiven (g : Given) : Options where
  task :=
    if .json ∈ g.flags then .json
    else if .lint ∈ g.flags then .lint
    else if .check ∈ g.flags then .check
    else if .write ∈ g.flags then .write
    else .print
  format :=
    { keepComments := .stripComments ∉ g.flags
      requireComplete := .allowIncomplete ∉ g.flags
      layout := if .compact ∈ g.flags then .compact else .multiline }
  paths := g.paths

/-- The options of a list of arguments. -/
def ofArguments? (arguments : List String) : Except Stop Options :=
  match Given.addAll ⟨[], []⟩ arguments with
  | .error stop => .error stop
  | .ok g =>
    match Flag.conflicts.find? fun (a, b) => a ∈ g.flags ∧ b ∈ g.flags with
    | some (a, b) => .error (.usage (.conflict a b))
    | none => .ok (ofGiven g)

end Options

end BladeStyle.CommandLine
