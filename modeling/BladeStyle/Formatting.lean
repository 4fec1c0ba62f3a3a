import BladeStyle.Registry.Parse
import BladeStyle.Style.Comments
import BladeStyle.Style.Findings
import BladeStyle.Style.Layout

/-!
# Formatting

To format a text is to parse it, to drop its comments if they are not wanted, to refuse
it if it has errors and completeness is required, and to write it in one of the layouts.
-/

namespace BladeStyle

/-- How a text is formatted. -/
structure FormatOptions where
  keepComments : Bool := true
  requireComplete : Bool := true
  layout : Layout := .multiline

/-- Why a text cannot be formatted. -/
inductive FormatError where
  | parse (error : ParseError)
  | incomplete (findings : List Finding)
  | emptySlot (error : EmptySlot)
  deriving DecidableEq

/-- The text shown for an error. -/
def FormatError.message : FormatError → String
  | parse e => e.message
  | incomplete findings => s!"style is incomplete ({findings.length} lint error(s))"
  | emptySlot e => e.message

namespace Style

/-- The text of a tree; its comments are written whatever the options say. -/
def format (s : Style) (options : FormatOptions) : Except FormatError String :=
  if options.requireComplete ∧ anyError s.findings then .error (.incomplete s.findings)
  else (s.text options.layout).mapError .emptySlot

end Style

/-- The formatted form of a text. -/
def format (text : String) (options : FormatOptions) : Except FormatError String :=
  match Style.parse text with
  | .error e => .error (.parse e)
  | .ok s => (if options.keepComments then s else s.withoutComments).format options

end BladeStyle
