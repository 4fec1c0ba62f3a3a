import BladeStyle.Editing.Clipboard
import BladeStyle.Editing.History
import BladeStyle.Proofs.Editing.Effect

/-!
# Changes in place

A change in place leaves an engine, a history or a clipboard behind whatever comes of it.  A
mutation in place walks to its node on a way of its own and comes to what the mutation makes of the
tree.  What is refused leaves behind what it found: a mutation, a text, a step that is taken back
or forward, and a copy.
-/

namespace BladeStyle

namespace Engine

variable {e next : Engine} {m : Mutation} {error : EditError}

/-- A mutation in place comes to what it makes of the tree. -/
theorem mutate_eq (e : Engine) (m : Mutation) :
  e.mutate m = match m.apply e.root with
    | .error error => (.error error, e)
    | .ok tree => (.ok (), e.withRoot tree)
  := by
  rw [mutate, Style.focus?_eq, Mutation.apply]
  cases e.root.at? m.path with
  | none => rfl
  | some node =>
    simp only [Option.map_some]
    cases m.edit.apply node <;> rfl

/-- An accepted mutation puts the new tree in place. -/
theorem mutate_of_ok {tree : Style} (h : m.apply e.root = .ok tree) :
  e.mutate m = (.ok (), e.withRoot tree)
  := by
  rw [mutate_eq, h]

/-- A refused mutation gives its error and the engine as it was. -/
theorem mutate_of_error (h : m.apply e.root = .error error) :
  e.mutate m = (.error error, e)
  := by
  rw [mutate_eq, h]

/-- A mutation keeps what it keeps if it is accepted. -/
theorem holds_mutate {P : Engine → Prop} (he : P e)
    (h : ∀ tree, m.apply e.root = .ok tree → P (e.withRoot tree)) :
  P (e.mutate m).2
  := by
  rw [mutate_eq]
  split
  · exact he
  · next tree htree => apply h tree htree

/-- The engine after an accepted mutation has the tree that the mutation makes. -/
theorem apply_eq (e : Engine) (m : Mutation) :
  e.apply m = (m.apply e.root).map e.withRoot
  := by
  rw [apply, mutate_eq]
  cases m.apply e.root <;> rfl

/-- An engine accepts a mutation exactly if the mutation accepts its tree. -/
theorem apply_eq_ok :
  e.apply m = .ok next ↔ ∃ tree, m.apply e.root = .ok tree ∧ next = e.withRoot tree
  := by
  rw [apply_eq]
  cases m.apply e.root with
  | error error => simp [Except.map]
  | ok tree => simp [Except.map, eq_comm]

/-- A refused mutation leaves the engine as it is. -/
theorem mutate_eq_error_iff :
  e.mutate m = (.error error, next) ↔ e.apply m = .error error ∧ next = e
  := by
  rw [apply, mutate_eq]
  cases m.apply e.root with
  | error error' => simp [Except.map, eq_comm]
  | ok tree => simp [Except.map]

/-- A text that is not parsed leaves the engine as it is. -/
theorem eq_of_setText_eq_error {text : String} (h : e.setText text = (.error error, next)) :
  next = e
  := by
  rw [setText] at h
  split at h
  · exact (Prod.mk.inj h).2.symm
  · cases h

/-- A text that is typed keeps what it keeps if it is parsed. -/
theorem holds_setText {P : Engine → Prop} (he : P e) {text : String}
    (h : ∀ root, Style.parse text = .ok root → P ⟨root, some text, false⟩) :
  P (e.setText text).2
  := by
  rw [setText]
  split
  · exact he
  · next root hroot => apply h root hroot

end Engine

namespace Change

variable {c : Change} {e next : Engine} {error : EditError}

/-- A change that cannot be taken back leaves the engine as it is. -/
theorem eq_of_undo_eq_error (h : c.undo e = (.error error, next)) :
  next = e
  := by
  cases c with
  | mutation forward inverse => exact (Engine.mutate_eq_error_iff.mp h).2
  | trees before after => cases h

/-- A change that cannot be made again leaves the engine as it is. -/
theorem eq_of_redo_eq_error (h : c.redo e = (.error error, next)) :
  next = e
  := by
  cases c with
  | mutation forward inverse => exact (Engine.mutate_eq_error_iff.mp h).2
  | trees before after => cases h

end Change

namespace History

variable {h : History} {e : Engine} {m : Mutation} {description : String}

/-- A mutation is refused exactly if the engine refuses it, and then the history and the engine
stay as they are. -/
theorem perform_eq_error_iff {error : EditError} {next : History × Engine} :
  h.perform e m description = (.error error, next) ↔ e.apply m = .error error ∧ next = (h, e)
  := by
  rw [perform, Engine.apply, Engine.mutate_eq]
  cases m.apply e.root with
  | error error' => simp [Except.map, eq_comm]
  | ok tree =>
    dsimp only
    split
    · simp [Except.map]
    · split <;> simp [Except.map]

end History

namespace Clipboard

/-- A subtree that cannot be copied leaves the clipboard as it is. -/
theorem eq_of_take_eq_error {c next : Clipboard} {e : Engine} {path : Path} {error : EditError}
    (h : c.take e path = (.error error, next)) :
  next = c
  := by
  rw [take] at h
  split at h
  · exact (Prod.mk.inj h).2.symm
  · split at h
    · exact (Prod.mk.inj h).2.symm
    · cases h

end Clipboard

end BladeStyle
