import BladeStyle.Editing.Engine

/-!
# Undo and redo

Every mutation that goes through a history is recorded as a step that can be taken back.
A step holds the inverse of its mutation where the mutation has one, and otherwise the
trees before and after.  While a batch is open, mutations take effect at once and are
recorded as one step when the batch is closed; batches nest, and the outermost counts.
A history keeps a limited number of steps and forgets the oldest.
-/

namespace BladeStyle

/-- How a step is taken forward and back. -/
inductive Change where
  | mutation (forward inverse : Mutation)
  | trees (before after : Style)
  deriving DecidableEq

/-- A change with the description shown for it. -/
structure Step where
  change : Change
  description : String
  deriving DecidableEq

/-- An open batch: how many further batches are open inside it, the tree when it was
opened, and whether a mutation has taken effect since. -/
structure Batch where
  inner : Nat
  before : Style
  changed : Bool
  deriving DecidableEq

/-- The steps that can be taken back and forward, the next one first in each list. -/
structure History where
  undoable : List Step
  redoable : List Step
  maxDepth : Nat
  batch : Option Batch
  deriving DecidableEq

/-- The edit that takes back `edit` at a node, if a single edit does.  A removed
parameter can be inserted again if it holds a value and carries no comment. -/
def Edit.inverse? (node : Style) : Edit → Option Edit
  | .setNumber i _ =>
    match node.params[i]?.map Param.slot with
    | some (.number n) => some (.setNumber i n)
    | _ => none
  | .setBits i _ =>
    match node.params[i]?.map Param.slot with
    | some (.bits b) => some (.setBits i b)
    | _ => none
  | .setBool i _ =>
    match node.params[i]?.map Param.slot with
    | some (.bool b) => some (.setBool i b)
    | _ => none
  | .setStyle i _ | .detachStyle i =>
    match node.params[i]?.map Param.slot with
    | some (.child s) => some (.setStyle i s)
    | some .empty => some (.detachStyle i)
    | _ => none
  | .addParam i _ => some (.removeParam i)
  | .removeParam i =>
    match node.params[i]? with
    | some p => if p.comment = "" then p.value?.map (.addParam i) else none
    | none => none
  | .setComment _ => some (.setComment node.comment)

/-- The mutation that takes back `m` on the tree `root`, if a single one does. -/
def Mutation.inverse? (m : Mutation) (root : Style) : Option Mutation :=
  (root.at? m.path).bind fun node => (m.edit.inverse? node).map (⟨m.path, ·⟩)

namespace Change

/-- Makes a change again. -/
def redo (c : Change) (e : Engine) : Except EditError Unit × Engine :=
  match c with
  | mutation forward _ => e.mutate forward
  | trees _ after => (.ok (), e.withRoot after)

/-- Takes a change back. -/
def undo (c : Change) (e : Engine) : Except EditError Unit × Engine :=
  match c with
  | mutation _ inverse => e.mutate inverse
  | trees before _ => (.ok (), e.withRoot before)

end Change

namespace History

/-- The history without steps. -/
def empty (maxDepth : Nat) : History := ⟨[], [], maxDepth, none⟩

/-- The history without its steps. -/
def clear (h : History) : History := { h with undoable := [], redoable := [] }

/-- The history after a new step, which ends what could be done again.  If there is one step
too many, the oldest one is forgotten. -/
def push (h : History) (step : Step) : History :=
  let steps := step :: h.undoable
  { h with
    undoable := if h.maxDepth < steps.length then steps.dropLast else steps
    redoable := [] }

/-- Opens a batch. -/
def openBatch (h : History) (e : Engine) : History :=
  match h.batch with
  | none => { h with batch := some ⟨0, e.root, false⟩ }
  | some b => { h with batch := some { b with inner := b.inner + 1 } }

/-- Closes a batch.  The outermost one is recorded if it changed the tree. -/
def closeBatch (h : History) (e : Engine) (description : String) : History :=
  match h.batch with
  | none => h
  | some ⟨inner + 1, before, changed⟩ => { h with batch := some ⟨inner, before, changed⟩ }
  | some ⟨0, before, changed⟩ =>
    let closed := { h with batch := none }
    if changed ∧ before ≠ e.root then closed.push ⟨.trees before e.root, description⟩ else closed

/-- Makes a mutation and records it. -/
def perform (h : History) (e : Engine) (m : Mutation) (description : String) :
    Except EditError Unit × History × Engine :=
  match e.mutate m with
  | (.error error, next) => (.error error, h, next)
  | (.ok (), next) =>
    match h.batch with
    | some b => (.ok (), { h with batch := some { b with changed := true } }, next)
    | none =>
      match m.inverse? e.root with
      | some inverse => (.ok (), h.push ⟨.mutation m inverse, description⟩, next)
      | none => (.ok (), h.push ⟨.trees e.root next.root, description⟩, next)

/-- The history and the engine after a mutation, if it is accepted. -/
def execute (h : History) (e : Engine) (m : Mutation) (description : String) :
    Except EditError (History × Engine) :=
  let (outcome, next) := h.perform e m description
  outcome.map fun _ => next

/-- Takes the last step back and gives its description, if there is one.  If the step no
longer applies, the history is cleared. -/
def undo (h : History) (e : Engine) : Except EditError (Option String) × History × Engine :=
  match h.undoable with
  | [] => (.ok none, h, e)
  | step :: rest =>
    match step.change.undo e with
    | (.error error, next) => (.error error, h.clear, next)
    | (.ok (), next) =>
      (.ok (some step.description),
        { h with undoable := rest, redoable := step :: h.redoable }, next)

/-- Takes the step that was last taken back again, as `History.undo` takes it back. -/
def redo (h : History) (e : Engine) : Except EditError (Option String) × History × Engine :=
  match h.redoable with
  | [] => (.ok none, h, e)
  | step :: rest =>
    match step.change.redo e with
    | (.error error, next) => (.error error, h.clear, next)
    | (.ok (), next) =>
      (.ok (some step.description),
        { h with undoable := step :: h.undoable, redoable := rest }, next)

end History

end BladeStyle
