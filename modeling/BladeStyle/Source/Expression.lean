import BladeStyle.Source.Piece

/-!
# Expressions

The outermost level of a style expression, such as `/* base */ Layers<Red, BlastL<White>>`:
the comments before its name, the name, and the arguments between the brackets, each as
a source of its own.  Brackets and commas inside comments mean nothing.  What precedes
the name apart from comments, and what follows the closing bracket, is ignored.
-/

namespace BladeStyle

/-- What is wrong with the outermost level of an expression. -/
inductive SyntaxError where
  | mismatchedBlockComment (offset : Nat)
  | missingName
  | mismatchedBrackets (name : String)
  deriving DecidableEq

/-- The text shown for an error. -/
def SyntaxError.message : SyntaxError → String
  | mismatchedBlockComment offset => s!"mismatched block comment starting at byte {offset}"
  | missingName => "could not find style name"
  | mismatchedBrackets name => s!"mismatched <> in style {name}"

namespace Source

/-- The source of a text. -/
def ofText? (text : String) : Except SyntaxError Source :=
  (ofChars? text.toList).mapError .mismatchedBlockComment

/-- The characters of an argument that matter for a literal: neither comments nor
layout. -/
def literal (s : Source) : List Char := s.chars.filter fun c => !Text.isLayout c

/-- What the comments of an argument say, up to its first bracket. -/
def leadingText (s : Source) : List Char :=
  Comment.joinedText (comments (s.takeWhile (· ≠ .char '<')))

/-- Whether a name may start with this character. -/
def isNameStart (c : Char) : Bool := c.isAlpha

/-- Whether a name may go on with this character. -/
def isNamePart (c : Char) : Bool := c.isAlphanum || c = '_'

/-- Divides a source before the first character that may start a name. -/
def splitAtName (s : Source) : Source × Source :=
  s.span fun p => !(p.char?.any isNameStart)

/-- The name at the front of a source, and the rest. -/
def splitName : Source → List Char × Source
  | .char c :: s =>
    if isNamePart c then
      let (name, rest) := splitName s
      (c :: name, rest)
    else ([], .char c :: s)
  | s => ([], s)

/-- Divides what follows an opening bracket at the commas outside inner brackets, up to
the bracket that closes it.  `depth` is the number of inner brackets that are open.
Gives the first argument and the others; there are none if a bracket is not closed. -/
def splitArguments (depth : Nat) : Source → Option (Source × List Source)
  | [] => none
  | .char '<' :: s =>
    (splitArguments (depth + 1) s).map fun (a, rest) => (.char '<' :: a, rest)
  | .char '>' :: s =>
    match depth with
    | 0 => some ([], [])
    | depth + 1 => (splitArguments depth s).map fun (a, rest) => (.char '>' :: a, rest)
  | .char ',' :: s =>
    match depth with
    | 0 => (splitArguments 0 s).map fun (a, rest) => ([], a :: rest)
    | depth + 1 => (splitArguments (depth + 1) s).map fun (a, rest) => (.char ',' :: a, rest)
  | p :: s => (splitArguments depth s).map fun (a, rest) => (p :: a, rest)

/-- The arguments after a name: those of the first pair of brackets.  Brackets with
nothing but comments and layout between them hold no argument, and neither does a source
without brackets; there is no answer if the brackets do not match. -/
def arguments? : Source → Option (List Source)
  | [] => some []
  | .char '<' :: s =>
    (splitArguments 0 s).map fun (a, rest) =>
      if rest = [] ∧ a.literal = [] then [] else a :: rest
  | .char '>' :: _ => none
  | _ :: s => arguments? s

end Source

/-- The outermost level of a style expression. -/
structure Expression where
  leading : List Comment
  name : String
  arguments : List Source
  deriving DecidableEq

namespace Expression

/-- What the comments before the name say. -/
def comment (e : Expression) : List Char := Comment.joinedText e.leading

/-- The outermost level of a source. -/
def ofSource? (s : Source) : Except SyntaxError Expression :=
  let (before, rest) := s.splitAtName
  match rest with
  | [] => .error .missingName
  | rest =>
    let (name, rest) := rest.splitName
    match rest.arguments? with
    | some arguments => .ok ⟨before.comments, String.ofList name, arguments⟩
    | none => .error (.mismatchedBrackets (String.ofList name))

/-- The outermost level of a text. -/
def ofText? (text : String) : Except SyntaxError Expression := do
  ofSource? (← Source.ofText? text)

end Expression

end BladeStyle
