import BladeStyle.Editing.Engine

/-!
# The clipboard

A copied subtree is held as text, so that it may as well come from outside the editor;
pasting parses it again.  Pasting and duplicating only make the mutation that fills a
slot: applying it is another step.
-/

namespace BladeStyle

/-- The text that was copied last. -/
structure Clipboard where
  content : Option String
  deriving DecidableEq

namespace Clipboard

/-- The clipboard before anything is copied. -/
def empty : Clipboard := ⟨none⟩

/-- Copies the subtree at a path. -/
def take (c : Clipboard) (e : Engine) (path : Path) : Except EditError Unit × Clipboard :=
  match e.node? path with
  | none => (.error (.noNode path), c)
  | some node =>
    match node.text .multiline with
    | .error error => (.error (.emptySlot error), c)
    | .ok text => (.ok (), { c with content := some text })

/-- A clipboard with a copy of the subtree at a path, if it can be copied. -/
def copy (e : Engine) (path : Path) : Except EditError Clipboard :=
  let (outcome, next) := empty.take e path
  outcome.map fun _ => next

/-- The mutation that puts the copied style into parameter `index` of the node at a
path. -/
def paste (c : Clipboard) (path : Path) (index : Nat) : Except EditError Mutation :=
  match c.content with
  | none => .error .emptyClipboard
  | some text =>
    match Style.parse text with
    | .error e => .error (.parse e)
    | .ok style => .ok ⟨path, .setStyle index style⟩

end Clipboard

/-- The mutation that puts the subtree at `source` into parameter `index` of the node at
`target`. -/
def Engine.duplicate (e : Engine) (source target : Path) (index : Nat) :
    Except EditError Mutation :=
  match e.node? source with
  | none => .error (.noNode source)
  | some node => .ok ⟨target, .setStyle index node⟩

end BladeStyle
