import BladeStyle.Literal
import BladeStyle.Style.Basic

/-!
# Layouts

A style is written as its name and its parameters between brackets.  In the multi-line
layout a node with a child that has brackets of its own takes a line for each parameter,
indented by a tab, and comments stand as blocks above the node; in the compact layout
all is on one line.  A node of the Builtin category is written as `&name`, a wrapper
gets `()` at its end, and a node of fixed form has no brackets.  A node with an empty
slot cannot be written.
-/

namespace BladeStyle

/-- How a style is broken into lines. -/
inductive Layout where
  | multiline
  | compact
  deriving DecidableEq

/-- An empty slot that keeps a style from being written. -/
structure EmptySlot where
  style : String
  param : String
  deriving DecidableEq

/-- The text shown for an empty slot. -/
def EmptySlot.message (e : EmptySlot) : String :=
  s!"empty parameter \"{e.param}\" in {e.style}"

namespace Layout

/-- The text with every closing marker broken up, so that it cannot end its comment. -/
def unclosing : List Char → List Char
  | [] => []
  | '*' :: '/' :: cs => '*' :: ' ' :: '/' :: unclosing cs
  | c :: cs => c :: unclosing cs

/-- The text on one line. -/
def flat (cs : List Char) : List Char := cs.map fun c => if c = '\n' then ' ' else c

/-- The text with every line but the first indented by a tab. -/
def indented (cs : List Char) : List Char :=
  cs.flatMap fun c => if c = '\n' then ['\n', '\t'] else [c]

/-- A comment on a line with what follows. -/
def inlineComment (cs : List Char) : List Char := ['/', '*', ' '] ++ cs ++ [' ', '*', '/', ' ']

/-- A comment on lines of its own. -/
def blockComment (cs : List Char) : List Char :=
  ['/', '*', '\n'] ++ cs ++ ['\n', '*', '/', '\n']

/-- The comment above a node. -/
def nodeComment (layout : Layout) : List Char → List Char
  | [] => []
  | cs =>
    match layout with
    | multiline => blockComment (unclosing cs)
    | compact => inlineComment (flat (unclosing cs))

/-- The comment before a literal. -/
def literalComment (layout : Layout) : List Char → List Char
  | [] => []
  | cs =>
    match layout with
    | multiline => inlineComment (unclosing cs)
    | compact => inlineComment (flat (unclosing cs))

/-- The parameters of a node one after the other, or each on a line of its own. -/
def arrange (apart : Bool) (params : List (List Char)) : List Char :=
  if apart then [','].intercalate (params.map fun p => '\n' :: '\t' :: p) ++ ['\n']
  else [',', ' '].intercalate params

/-- The parameters between brackets. -/
def bracketed (fixedForm : Bool) (params : List Char) : List Char :=
  if fixedForm then params else ['<'] ++ params ++ ['>']

/-- What stands after the brackets. -/
def ending (category : Category) : List Char :=
  if category = .wrapper then ['(', ')'] else []

end Layout

namespace Style

/-- Whether the parameters are written on lines of their own: some child has
brackets. -/
def isApart (layout : Layout) (params : List (Param Style)) : Bool :=
  layout = .multiline && params.any fun p => p.child?.any fun c => !c.fixedForm

mutual

/-- A style as text. -/
def write (layout : Layout) : Style → Except EmptySlot (List Char)
  | ⟨name, _, category, fixedForm, params, _, comment⟩ =>
    let head := layout.nodeComment comment.toList
    if category = .builtin then .ok (head ++ '&' :: name.toList)
    else
      let apart := isApart layout params
      (writeParams layout params name apart).map fun texts =>
        head ++ name.toList ++ Layout.bracketed fixedForm (Layout.arrange apart texts)
          ++ Layout.ending category

/-- The parameters of the node `style` as texts. -/
def writeParams (layout : Layout) (params : List (Param Style)) (style : String)
    (apart : Bool) : Except EmptySlot (List (List Char)) :=
  match params with
  | [] => .ok []
  | ⟨name, _, slot, comment⟩ :: params =>
    match writeSlot layout slot comment apart with
    | some (.ok text) => (writeParams layout params style apart).map (text :: ·)
    | some (.error e) => .error e
    | none => .error ⟨style, name⟩

/-- A slot as text, unless it is empty. -/
def writeSlot (layout : Layout) (slot : Slot Style) (comment : String) (apart : Bool) :
    Option (Except EmptySlot (List Char)) :=
  match slot with
  | .number n => some (.ok (layout.literalComment comment.toList ++ Literal.writeNumber n))
  | .bits b => some (.ok (layout.literalComment comment.toList ++ Literal.writeBits b))
  | .bool b => some (.ok (layout.literalComment comment.toList ++ Literal.writeBool b))
  | .empty => none
  | .child s => some ((write layout s).map fun text => if apart then Layout.indented text else text)

end

/-- A style as text in the given layout. -/
def text (s : Style) (layout : Layout) : Except EmptySlot String :=
  (s.write layout).map String.ofList

end Style

end BladeStyle
