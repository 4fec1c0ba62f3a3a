import BladeStyle.Proofs.Editing.InPlace
import BladeStyle.Proofs.Editing.Inverse

/-!
# Editing sessions

In a session one engine is changed through one history only.  A list of commands is orderly
if nothing is undone or redone while a batch is open.
-/

namespace BladeStyle

/-- What is asked of a history. -/
inductive Command where
  | execute (m : Mutation) (description : String)
  | undo
  | redo
  | openBatch
  | closeBatch (description : String)

/-- How a command ends: an undo or a redo gives the description of its step, if there is
one. -/
inductive Outcome where
  | done
  | refused (error : EditError)
  | moved (description : Option String)
  deriving DecidableEq

namespace Command

/-- The style that a command carries, if it carries one, satisfies `P`. -/
def Carries (P : Style → Prop) : Command → Prop
  | execute m _ => m.edit.Carries P
  | undo | redo | openBatch | closeBatch _ => True

/-- The number of open batches after a command when there were `n` before it. -/
def openAfter (n : Nat) : Command → Nat
  | execute .. | undo | redo => n
  | openBatch => n + 1
  | closeBatch _ => n - 1

/-- A command that may be given while `n` batches are open. -/
def Allowed (n : Nat) : Command → Prop
  | undo | redo => n = 0
  | execute .. | openBatch | closeBatch _ => True

/-- A list of commands that may be given while `n` batches are open. -/
def Orderly (n : Nat) : List Command → Prop
  | [] => True
  | c :: cs => c.Allowed n ∧ Orderly (c.openAfter n) cs

/-- The outcomes of a list of commands and the state after them. -/
def run {σ : Type} (step : σ → Command → Outcome × σ) (state : σ) :
    List Command → List Outcome × σ
  | [] => ([], state)
  | c :: cs =>
    let (outcome, next) := step state c
    let (outcomes, last) := run step next cs
    (outcome :: outcomes, last)

end Command

/-- A history and the engine that it changes. -/
structure Session where
  history : History
  engine : Engine

namespace Session

/-- A session on an engine, without any steps yet. -/
def start (maxDepth : Nat) (engine : Engine) : Session := ⟨History.empty maxDepth, engine⟩

/-- The outcome of a move and the session after it. -/
def afterMove : Except EditError (Option String) × History × Engine → Outcome × Session
  | (.ok description, history, engine) => (.moved description, ⟨history, engine⟩)
  | (.error error, history, engine) => (.refused error, ⟨history, engine⟩)

/-- The outcome of a mutation and the session after it. -/
def afterMutation : Except EditError Unit × History × Engine → Outcome × Session
  | (.ok (), history, engine) => (.done, ⟨history, engine⟩)
  | (.error error, history, engine) => (.refused error, ⟨history, engine⟩)

/-- The outcome of a command and the session after it. -/
def step (s : Session) : Command → Outcome × Session
  | .execute m description => afterMutation (s.history.perform s.engine m description)
  | .undo => afterMove (s.history.undo s.engine)
  | .redo => afterMove (s.history.redo s.engine)
  | .openBatch => (.done, { s with history := s.history.openBatch s.engine })
  | .closeBatch description =>
    (.done, { s with history := s.history.closeBatch s.engine description })

end Session

end BladeStyle
