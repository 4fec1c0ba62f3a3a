import BladeStyle.Proofs.Editing.Timeline

/-!
# Steps of a history

A recorded step leads from the tree before it to the tree after it and back.  The steps of
a history, those to take back in reverse and then those to take forward, join the moments
of a timeline one after the other; taking some of the first steps, dropping some of them
and appending one does the same to the moments.
-/

namespace BladeStyle

/-! ### Joined moments -/

/-- A change that leads from one tree to another and back. -/
structure Change.Joins (c : Change) (before after : Style) : Prop where
  redo : ∀ e : Engine, e.root = before → c.redo e = (.ok (), e.withRoot after)
  undo : ∀ e : Engine, e.root = after → c.undo e = (.ok (), e.withRoot before)

/-- A change that keeps both trees leads from one to the other. -/
theorem Change.joins_trees (before after : Style) :
  (trees before after).Joins before after
  := ⟨fun _ _ => rfl, fun _ _ => rfl⟩

/-- A change that keeps a mutation and its inverse leads from the tree before it to the
tree after it if the inverse takes that tree back. -/
theorem Change.joins_mutation {forward inverse : Mutation} {before after : Style}
    (hforward : forward.apply before = .ok after) (hinverse : inverse.apply after = .ok before) :
  (mutation forward inverse).Joins before after
  := by
  constructor
  · rintro e rfl
    apply Engine.mutate_of_ok hforward
  · rintro e rfl
    apply Engine.mutate_of_ok hinverse

/-- Steps that lead from each moment to the next. -/
inductive Joined : List Step → List Moment → Prop where
  | single (moment : Moment) : Joined [] [moment]
  | cons {step : Step} {steps : List Step} {first second : Moment} {moments : List Moment}
      (joins : step.change.Joins first.tree second.tree)
      (description : step.description = second.description)
      (rest : Joined steps (second :: moments)) :
      Joined (step :: steps) (first :: second :: moments)

namespace Joined

variable {steps : List Step} {moments : List Moment}

/-- There is one moment more than there are steps. -/
theorem length_eq (h : Joined steps moments) :
  moments.length = steps.length + 1
  := by
  induction h with
  | single => rfl
  | cons _ _ _ ih => rw [List.length_cons, ih, List.length_cons]

/-- A step joins the moment at its place with the next one, which has its description. -/
theorem exists_of_getElem? (h : Joined steps moments) {i : Nat} {step : Step}
    (hi : steps[i]? = some step) :
  ∃ first second, moments[i]? = some first ∧ moments[i + 1]? = some second
    ∧ step.change.Joins first.tree second.tree ∧ step.description = second.description
  := by
  induction h generalizing i with
  | single => cases hi
  | @cons _ _ first second _ joins description _ ih =>
    cases i with
    | zero =>
      obtain rfl := Option.some.inj hi
      exact ⟨first, second, rfl, rfl, joins, description⟩
    | succ i => apply ih hi

/-- The first steps join one moment more than there are steps. -/
theorem take (h : Joined steps moments) (n : Nat) :
  Joined (steps.take n) (moments.take (n + 1))
  := by
  induction h generalizing n with
  | single moment =>
    rw [List.take_nil, List.take_succ_cons, List.take_nil]
    apply single
  | cons joins description _ ih =>
    cases n with
    | zero => apply single
    | succ n => apply cons joins description (ih n)

/-- The last steps join the moments from the same place on. -/
theorem drop (h : Joined steps moments) {n : Nat} (hn : n ≤ steps.length) :
  Joined (steps.drop n) (moments.drop n)
  := by
  induction h generalizing n with
  | single moment =>
    obtain rfl := Nat.le_zero.mp hn
    apply single
  | cons joins description rest ih =>
    cases n with
    | zero => apply cons joins description rest
    | succ n => apply ih (Nat.le_of_succ_le_succ hn)

/-- A step that leads on from the last moment joins it with a next one. -/
theorem concat (h : Joined steps moments) {step : Step} {last next : Moment}
    (hlast : moments.getLast? = some last) (joins : step.change.Joins last.tree next.tree)
    (description : step.description = next.description) :
  Joined (steps ++ [step]) (moments ++ [next])
  := by
  induction h with
  | single moment =>
    obtain rfl := Option.some.inj hlast
    apply cons joins description (single next)
  | cons joins' description' _ ih =>
    rw [List.getLast?_cons_cons] at hlast
    apply cons joins' description' (ih hlast)

end Joined

/-! ### Operations of a history -/

namespace History

variable {h : History} {e : Engine} {m : Mutation} {description : String}

/-- A mutation that is refused changes neither the history nor the tree. -/
theorem perform_of_error {error : EditError} (hm : m.apply e.root = .error error) :
  h.perform e m description = (.error error, h, e)
  := by
  rw [perform, Engine.mutate_of_error hm]

/-- While no batch is open, an accepted mutation is a step that leads from the tree before
it to the tree after it and back. -/
theorem perform_of_closed {tree : Style} (hroot : e.root.Proper) (hbatch : h.batch = none)
    (hm : m.apply e.root = .ok tree) :
  ∃ change : Change, change.Joins e.root tree
    ∧ h.perform e m description = (.ok (), h.push ⟨change, description⟩, e.withRoot tree)
  := by
  rw [perform, Engine.mutate_of_ok hm, hbatch]
  cases hinverse : m.inverse? e.root with
  | none =>
    use .trees e.root tree, Change.joins_trees e.root tree
    rfl
  | some inverse =>
    have hback := Mutation.apply_inverse? hroot hm hinverse
    use .mutation m inverse, Change.joins_mutation hm hback

/-- While a batch is open, an accepted mutation only changes the tree. -/
theorem perform_of_open {tree : Style} {b : Batch} (hbatch : h.batch = some b)
    (hm : m.apply e.root = .ok tree) :
  h.perform e m description
    = (.ok (), { h with batch := some { b with changed := true } }, e.withRoot tree)
  := by
  rw [perform, Engine.mutate_of_ok hm, hbatch]

/-- Without a step to take back nothing happens. -/
theorem undo_nil (hundoable : h.undoable = []) :
  h.undo e = (.ok none, h, e)
  := by
  rw [undo, hundoable]

/-- A step that its change can take back becomes the next one to take forward. -/
theorem undo_cons {step : Step} {rest : List Step} {undone : Engine}
    (hundoable : h.undoable = step :: rest) (hstep : step.change.undo e = (.ok (), undone)) :
  h.undo e
    = (.ok (some step.description),
        { h with undoable := rest, redoable := step :: h.redoable }, undone)
  := by
  simp only [undo, hundoable, hstep]

/-- Without a step to take forward nothing happens. -/
theorem redo_nil (hredoable : h.redoable = []) :
  h.redo e = (.ok none, h, e)
  := by
  rw [redo, hredoable]

/-- A step that its change can take forward becomes the next one to take back. -/
theorem redo_cons {step : Step} {rest : List Step} {redone : Engine}
    (hredoable : h.redoable = step :: rest) (hstep : step.change.redo e = (.ok (), redone)) :
  h.redo e
    = (.ok (some step.description),
        { h with undoable := step :: h.undoable, redoable := rest }, redone)
  := by
  simp only [redo, hredoable, hstep]

/-- The steps of a history from the oldest to the newest. -/
def steps (h : History) : List Step := h.undoable.reverse ++ h.redoable

/-- A history that has no more steps to take back than it keeps has none too many after a new one,
as the oldest one goes if need be. -/
theorem undoable_push (hle : h.undoable.length ≤ h.maxDepth) (step : Step) :
  (h.push step).undoable = (step :: h.undoable).take h.maxDepth
  := by
  rw [push]
  dsimp only
  split
  · next hlt =>
    have hlast : (step :: h.undoable).length - 1 = h.maxDepth := by
      rw [List.length_cons] at hlt ⊢
      omega
    rw [List.dropLast_eq_take, hlast]
  · next hle' => rw [List.take_of_length_le (Nat.le_of_not_lt hle')]

/-- A pushed step is the last one, and if there are too many the first one is lost. -/
theorem steps_push (hle : h.undoable.length ≤ h.maxDepth) (step : Step) :
  (h.push step).steps = (h.undoable.reverse ++ [step]).drop (h.undoable.length + 1 - h.maxDepth)
  := by
  have hredoable : (h.push step).redoable = [] := rfl
  rw [steps, undoable_push hle, hredoable, List.append_nil, List.reverse_take, List.reverse_cons,
    List.length_cons]

/-- The steps of a history start with those to take back, the oldest first. -/
theorem take_steps (h : History) :
  h.steps.take h.undoable.length = h.undoable.reverse
  := List.take_left' List.length_reverse

end History

end BladeStyle
