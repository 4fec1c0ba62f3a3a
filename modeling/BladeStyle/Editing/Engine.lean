import BladeStyle.Registry.Parse
import BladeStyle.Style.Layout
import BladeStyle.Style.Path

/-!
# The editor engine

An engine holds the tree behind a block editor and a text for it.  An edit changes the
tree and marks the text as stale; the text is written again when it is asked for, and
there is none while the tree has an empty slot.  Text that the user types is parsed and
kept as it was typed.  What is done in place gives its outcome and the engine that it
leaves behind, also if it is refused.
-/

namespace BladeStyle

/-- What is done at a node. -/
inductive Edit where
  | setNumber (index : Nat) (value : Int)
  | setBits (index : Nat) (value : BitVec 16)
  | setBool (index : Nat) (value : Bool)
  | setStyle (index : Nat) (style : Style)
  | detachStyle (index : Nat)
  | addParam (index : Nat) (value : Value)
  | removeParam (index : Nat)
  | setComment (comment : String)
  deriving DecidableEq

namespace Edit

/-- The name of an edit in a list of commands. -/
def name : Edit → String
  | setNumber .. => "set number"
  | setBits .. => "set bits"
  | setBool .. => "set bool"
  | setStyle .. => "set style"
  | detachStyle _ => "detach style"
  | addParam .. => "add parameter"
  | removeParam _ => "remove parameter"
  | setComment _ => "set comment"

/-- The parameter that an edit is about. -/
def index? : Edit → Option Nat
  | setNumber i _ | setBits i _ | setBool i _ | setStyle i _ | detachStyle i | addParam i _
  | removeParam i => some i
  | setComment _ => none

/-- The node after an edit.  Only a composite parameter can be detached. -/
def apply (s : Style) : Edit → Except BindError Style
  | setNumber i value => s.updateParam i (·.storeNumber value)
  | setBits i value => s.updateParam i (·.storeBits value.toNat)
  | setBool i value => s.updateParam i (·.storeBool value)
  | setStyle i style => s.updateParam i (·.fill style)
  | detachStyle i =>
    s.updateParam i fun p => if p.isLiteral then .error (.expectedStyle p.name) else .ok p.detached
  | addParam i value => s.insertRepeat i value
  | removeParam i => (s.removeRepeat i).map Prod.snd
  | setComment comment => .ok { s with comment }

end Edit

/-- An edit of the node at a path. -/
structure Mutation where
  path : Path
  edit : Edit
  deriving DecidableEq

/-- Why the editor refuses to do something. -/
inductive EditError where
  | parse (error : ParseError)
  | emptySlot (error : EmptySlot)
  | noNode (path : Path)
  | param (path : Path) (style : String) (error : BindError)
  | emptyClipboard
  deriving DecidableEq

/-- The text shown for an error. -/
def EditError.message : EditError → String
  | parse e => e.message
  | emptySlot e => e.message
  | noNode path => s!"no style at {path.display}"
  | param path style e => s!"cannot edit {style} at {path.display}: {e.message}"
  | emptyClipboard => "clipboard is empty"

namespace Style

mutual

/-- Whether every composite slot in a tree holds a child. -/
def isComplete : Style → Bool
  | ⟨_, _, _, _, params, _, _⟩ => areComplete params

/-- Whether every composite slot in some parameters and below holds a child. -/
def areComplete : List (Param Style) → Bool
  | [] => true
  | ⟨_, _, slot, _⟩ :: params => slotIsComplete slot && areComplete params

/-- Whether a slot is not empty and neither is any slot below it. -/
def slotIsComplete : Slot Style → Bool
  | .empty => false
  | .child s => isComplete s
  | _ => true

end

end Style

/-- The tree behind a block editor, with the text last written or typed, if the tree had
one, and whether the tree has changed since. -/
structure Engine where
  root : Style
  stored : Option String
  dirty : Bool
  deriving DecidableEq

namespace Engine

/-- An engine for a tree, whose text is written on the first request. -/
def ofStyle (root : Style) : Engine := ⟨root, none, true⟩

/-- An engine for the tree of a text, which is written anew. -/
def ofText? (text : String) : Except EditError Engine :=
  match Style.parse text with
  | .error e => .error (.parse e)
  | .ok root =>
    match root.text .multiline with
    | .error e => .error (.emptySlot e)
    | .ok written => .ok ⟨root, some written, false⟩

/-- The node at a path. -/
def node? (e : Engine) (path : Path) : Option Style := e.root.at? path

/-- The engine with another tree. -/
def withRoot (e : Engine) (root : Style) : Engine := { e with root, dirty := true }

/-- Makes a mutation in place: walks to its node, edits it there and marks the text as
stale. -/
def mutate (e : Engine) (m : Mutation) : Except EditError Unit × Engine :=
  match e.root.focus? m.path with
  | none => (.error (.noNode m.path), e)
  | some focus =>
    match m.edit.apply focus.node with
    | .error error => (.error (.param m.path focus.node.name error), e)
    | .ok t => (.ok (), { e with root := focus.put t, dirty := true })

/-- The engine after a mutation, if it is accepted. -/
def apply (e : Engine) (m : Mutation) : Except EditError Engine :=
  let (outcome, next) := e.mutate m
  outcome.map fun _ => next

/-- The engine with its text written, if it was stale. -/
def flush (e : Engine) : Engine :=
  if e.dirty then { e with stored := (e.root.text .multiline).toOption, dirty := false } else e

/-- Takes the tree of a text that the user typed, and keeps the text. -/
def setText (e : Engine) (text : String) : Except EditError Unit × Engine :=
  match Style.parse text with
  | .error error => (.error (.parse error), e)
  | .ok root => (.ok (), { e with root, stored := some text, dirty := false })

/-- The engine with the tree of a text that the user typed, if it is parsed. -/
def enterText (e : Engine) (text : String) : Except EditError Engine :=
  let (outcome, next) := e.setText text
  outcome.map fun _ => next

/-- The text of the tree, if it has one. -/
def text? (e : Engine) : Option String := e.flush.stored

/-- Whether every composite slot in the tree holds a child. -/
def isComplete (e : Engine) : Bool := e.root.isComplete

end Engine

end BladeStyle
