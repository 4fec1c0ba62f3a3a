import BladeStyle.Proofs.Editing.Session

/-!
# Timelines

A timeline is what a history is meant to be: the trees from the oldest to the newest, and a
cursor at the one that is shown.  A new step drops what is ahead of the cursor and appends a
tree, undo and redo move the cursor by one, and no more than a given number of steps is
kept.  While a batch is open, the tree that is shown changes and the trees of the timeline
do not; closing the outermost batch makes one step of all its changes.
-/

namespace BladeStyle

/-- A tree and the description of the step that led to it. -/
structure Moment where
  tree : Style
  description : String

/-- The moments from the oldest to the newest, the position of the present one and, while
batches are open, the number of batches inside the outermost one with the tree that is
shown. -/
structure Timeline where
  moments : List Moment
  cursor : Nat
  cursor_lt : cursor < moments.length
  batch : Option (Nat × Style)

namespace Timeline

/-- The timeline of a tree to which nothing has happened. -/
def start (tree : Style) : Timeline := ⟨[⟨tree, ""⟩], 0, Nat.one_pos, none⟩

/-- The moment at the cursor. -/
def present (t : Timeline) : Moment := t.moments.get ⟨t.cursor, t.cursor_lt⟩

/-- The tree that is shown: the one at the cursor unless a batch is open. -/
def tree (t : Timeline) : Style :=
  match t.batch with
  | none => t.present.tree
  | some (_, tree) => tree

/-- The number of open batches. -/
def openBatches (t : Timeline) : Nat :=
  match t.batch with
  | none => 0
  | some (inner, _) => inner + 1

/-- The timeline with a new moment after the present one and nothing after that.  Of the
steps between moments the last `limit` are kept. -/
def record (limit : Nat) (t : Timeline) (moment : Moment) : Timeline where
  moments := (t.moments.take (t.cursor + 1) ++ [moment]).drop (t.cursor + 1 - limit)
  cursor := min (t.cursor + 1) limit
  cursor_lt := by
    have hlt := t.cursor_lt
    rw [List.length_drop, List.length_append, List.length_take, List.length_singleton]
    omega
  batch := none

/-- The timeline with the cursor one step back, and the description of that step. -/
def undo (t : Timeline) : Option String × Timeline :=
  if t.cursor = 0 then (none, t)
  else
    (some t.present.description,
      { t with
        cursor := t.cursor - 1
        cursor_lt := Nat.lt_of_le_of_lt (Nat.sub_le _ _) t.cursor_lt })

/-- The timeline with the cursor one step ahead, and the description of that step. -/
def redo (t : Timeline) : Option String × Timeline :=
  if h : t.cursor + 1 < t.moments.length then
    let next := { t with cursor := t.cursor + 1, cursor_lt := h }
    (some next.present.description, next)
  else (none, t)

def openBatch (t : Timeline) : Timeline :=
  match t.batch with
  | none => { t with batch := some (0, t.tree) }
  | some (inner, tree) => { t with batch := some (inner + 1, tree) }

/-- The timeline after a batch is closed.  The outermost batch is a step if the tree that it
leaves is not the one it found. -/
def closeBatch (limit : Nat) (t : Timeline) (description : String) : Timeline :=
  match t.batch with
  | none => t
  | some (inner + 1, tree) => { t with batch := some (inner, tree) }
  | some (0, tree) =>
    if tree = t.present.tree then { t with batch := none } else t.record limit ⟨tree, description⟩

/-- The timeline with another tree shown: a step of its own unless a batch is open. -/
def change (limit : Nat) (t : Timeline) (tree : Style) (description : String) : Timeline :=
  match t.batch with
  | none => t.record limit ⟨tree, description⟩
  | some (inner, _) => { t with batch := some (inner, tree) }

/-- The outcome of a command and the timeline after it. -/
def step (limit : Nat) (t : Timeline) : Command → Outcome × Timeline
  | .execute m description =>
    match m.apply t.tree with
    | .error error => (.refused error, t)
    | .ok tree => (.done, t.change limit tree description)
  | .undo => (.moved t.undo.1, t.undo.2)
  | .redo => (.moved t.redo.1, t.redo.2)
  | .openBatch => (.done, t.openBatch)
  | .closeBatch description => (.done, t.closeBatch limit description)

/-! ### The present moment -/

variable {limit : Nat} {t : Timeline}

theorem present_eq_iff {moment : Moment} :
  t.present = moment ↔ t.moments[t.cursor]? = some moment
  := by
  rw [present, List.getElem?_eq_getElem t.cursor_lt, Option.some.injEq]
  exact Iff.rfl

theorem getElem?_cursor (t : Timeline) :
  t.moments[t.cursor]? = some t.present
  := present_eq_iff.mp rfl

theorem present_mem (t : Timeline) :
  t.present ∈ t.moments
  := List.mem_of_getElem? t.getElem?_cursor

/-- The recorded moment is the present one. -/
theorem present_record (moment : Moment) :
  (t.record limit moment).present = moment
  := by
  have hlt := t.cursor_lt
  have hlength : (t.moments.take (t.cursor + 1)).length = t.cursor + 1 :=
    List.length_take_of_le hlt
  have hindex : t.cursor + 1 - limit + min (t.cursor + 1) limit = t.cursor + 1 := by omega
  apply present_eq_iff.mpr
  rw [record, List.getElem?_drop, hindex, List.getElem?_append_right (Nat.le_of_eq hlength),
    hlength, Nat.sub_self]
  rfl

theorem change_of_closed (h : t.batch = none) (tree : Style) (description : String) :
  t.change limit tree description = t.record limit ⟨tree, description⟩
  := by
  rw [change.eq_def, h]

theorem change_of_open {inner : Nat} {old : Style} (h : t.batch = some (inner, old))
    (tree : Style) (description : String) :
  t.change limit tree description = { t with batch := some (inner, tree) }
  := by
  rw [change.eq_def, h]

/-! ### Moving the cursor -/

theorem undo_of_zero (h : t.cursor = 0) :
  t.undo = (none, t)
  := if_pos h

/-- If there is a moment before the present one, undo goes to it. -/
theorem undo_of_succ {n : Nat} (h : t.cursor = n + 1) {moment : Moment}
    (hmoment : t.moments[n]? = some moment) :
  ∃ t', t.undo = (some t.present.description, t') ∧ t'.moments = t.moments ∧ t'.cursor = n
    ∧ t'.batch = t.batch ∧ t'.present = moment
  := by
  have hpred : t.cursor - 1 = n := by omega
  have hne : t.cursor ≠ 0 := by omega
  rw [← hpred] at hmoment
  exact ⟨_, if_neg hne, rfl, hpred, rfl, present_eq_iff.mpr hmoment⟩

theorem redo_of_none (h : t.moments[t.cursor + 1]? = none) :
  t.redo = (none, t)
  := dif_neg (Nat.not_lt.mpr (List.getElem?_eq_none_iff.mp h))

/-- If there is a moment after the present one, redo goes to it. -/
theorem redo_of_some {moment : Moment} (h : t.moments[t.cursor + 1]? = some moment) :
  ∃ t', t.redo = (some moment.description, t') ∧ t'.moments = t.moments
    ∧ t'.cursor = t.cursor + 1 ∧ t'.batch = t.batch ∧ t'.present = moment
  := by
  obtain ⟨hlt, rfl⟩ := List.getElem?_eq_some_iff.mp h
  exact ⟨_, dif_pos hlt, rfl, rfl, rfl, rfl⟩

/-! ### Batches -/

/-- How many batches are open is decided by the commands alone. -/
theorem openBatches_step (limit : Nat) (t : Timeline) (c : Command) :
  (t.step limit c).2.openBatches = c.openAfter t.openBatches
  := by
  obtain ⟨moments, cursor, cursor_lt, batch⟩ := t
  cases c with
  | execute m description =>
    rw [step]
    split
    · rfl
    · cases batch <;> rfl
  | undo =>
    rw [step, undo]
    split <;> rfl
  | redo =>
    rw [step, redo]
    split <;> rfl
  | openBatch => cases batch <;> rfl
  | closeBatch description =>
    match batch with
    | none | some (_ + 1, _) => rfl
    | some (0, tree) =>
      dsimp only [step, closeBatch]
      split <;> rfl

end Timeline

end BladeStyle
