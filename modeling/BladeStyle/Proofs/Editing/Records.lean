import BladeStyle.Proofs.Editing.Refinement

/-!
# Recorded steps

Which commands record a step, and which are an undo or a redo that finds one, can be seen in a
session before they are given.  An undo or a redo does not depend on the open batch, and if it is
refused it leaves the tree alone.  Until more steps are recorded than are kept, the timeline
of a session begins with the tree at the start, and there taking back everything ends.
-/

namespace BladeStyle

/-! ### Moves and records -/

/-- Whether a mutation has taken effect in the open batch. -/
def History.isEdited (h : History) : Bool := h.batch.any Batch.changed

/-- Whether a command is an undo or a redo. -/
def Command.isMove : Command → Bool
  | undo | redo => true
  | execute .. | openBatch | closeBatch _ => false

namespace Session

/-- Whether a command is an undo or a redo that finds a step. -/
def moves (s : Session) : Command → Bool
  | .undo => !s.history.undoable.isEmpty
  | .redo => !s.history.redoable.isEmpty
  | .execute .. | .openBatch | .closeBatch _ => false

/-- Whether a command records a step: an accepted mutation while no batch is open, and the
end of an outermost batch that has changed the tree. -/
def records (s : Session) : Command → Bool
  | .execute m _ => s.history.batch.isNone && (m.apply s.engine.root).isOk
  | .closeBatch _ =>
    s.history.batch.any fun b => b.inner = 0 ∧ b.changed = true ∧ b.before ≠ s.engine.root
  | .undo | .redo | .openBatch => false

/-- The number of steps that a list of commands records. -/
def recorded (s : Session) : List Command → Nat
  | [] => 0
  | c :: cs => (s.records c).toNat + (s.step c).2.recorded cs

/-- Whether an undo or a redo has found a step, refused or not, in the batch that is open after a
command; `moved` tells this of the batch that is open before it. -/
def movedAfter (s : Session) (moved : Bool) (c : Command) : Bool :=
  (s.step c).2.history.batch.isSome && (moved || s.moves c)

/-- No batch has both a mutation that takes effect and an undo or a redo that finds a step, refused
or not; `moved` tells whether there has been one in the batch that is open at the start. -/
def Separate (moved : Bool) (s : Session) : List Command → Prop
  | [] => True
  | c :: cs =>
    ¬ (s.movedAfter moved c = true ∧ (s.step c).2.history.isEdited = true)
      ∧ Separate (s.movedAfter moved c) (s.step c).2 cs

instance decidableSeparate : (moved : Bool) → (s : Session) → (commands : List Command) →
    Decidable (Separate moved s commands)
  | _, _, [] => isTrue trivial
  | moved, s, c :: cs =>
    have := decidableSeparate (s.movedAfter moved c) (s.step c).2 cs
    inferInstanceAs (Decidable (_ ∧ _))

variable {s : Session} {c : Command}

/-- The session as it would be without its batch. -/
def withoutBatch (s : Session) : Session := ⟨{ s.history with batch := none }, s.engine⟩

theorem withoutBatch_of_none (h : s.history.batch = none) :
  s.withoutBatch = s
  := by
  obtain ⟨⟨undoable, redoable, maxDepth, batch⟩, engine⟩ := s
  obtain rfl : batch = none := h
  rfl

/-- An undo or a redo that does not find a step changes nothing. -/
theorem step_of_moves_eq_false (hc : c.isMove = true) (h : s.moves c = false) :
  s.step c = (.moved none, s)
  := by
  cases c with
  | undo =>
    have hnil : s.history.undoable = [] := by simpa [moves] using h
    rw [step, History.undo_nil hnil, afterMove]
  | redo =>
    have hnil : s.history.redoable = [] := by simpa [moves] using h
    rw [step, History.redo_nil hnil, afterMove]
  | execute | openBatch | closeBatch => cases hc

/-- An undo or a redo leaves the batch alone and does not depend on it. -/
theorem step_of_isMove (hc : c.isMove = true) :
  (s.step c).1 = (s.withoutBatch.step c).1
    ∧ (s.step c).2.withoutBatch = (s.withoutBatch.step c).2
    ∧ (s.step c).2.history.batch = s.history.batch
  := by
  obtain ⟨⟨undoable, redoable, maxDepth, batch⟩, engine⟩ := s
  cases c with
  | undo =>
    cases undoable with
    | nil => exact ⟨rfl, rfl, rfl⟩
    | cons last rest =>
      simp only [step, History.undo, withoutBatch]
      rcases last.change.undo engine with ⟨_ | _, undone⟩ <;> exact ⟨rfl, rfl, rfl⟩
  | redo =>
    cases redoable with
    | nil => exact ⟨rfl, rfl, rfl⟩
    | cons next rest =>
      simp only [step, History.redo, withoutBatch]
      rcases next.change.redo engine with ⟨_ | _, redone⟩ <;> exact ⟨rfl, rfl, rfl⟩
  | execute | openBatch | closeBatch => cases hc

theorem records_of_isMove (hc : c.isMove = true) :
  s.records c = false
  := by
  cases c with
  | undo | redo => rfl
  | execute | openBatch | closeBatch => cases hc

/-- An undo or a redo that is refused leaves the tree alone and forgets all steps. -/
theorem step_of_refused (hc : c.isMove = true) {error : EditError}
    (h : (s.step c).1 = .refused error) :
  (s.step c).2 = ⟨s.history.clear, s.engine⟩
  := by
  obtain ⟨⟨undoable, redoable, maxDepth, batch⟩, engine⟩ := s
  cases c with
  | undo =>
    cases undoable with
    | nil => cases h
    | cons last rest =>
      simp only [step, History.undo] at h ⊢
      rcases hundo : last.change.undo engine with ⟨error' | _, undone⟩
      · rw [last.change.eq_of_undo_eq_error hundo]
        rfl
      · rw [hundo] at h
        cases h
  | redo =>
    cases redoable with
    | nil => cases h
    | cons next rest =>
      simp only [step, History.redo] at h ⊢
      rcases hredo : next.change.redo engine with ⟨error' | _, redone⟩
      · rw [next.change.eq_of_redo_eq_error hredo]
        rfl
      · rw [hredo] at h
        cases h
  | execute | openBatch | closeBatch => cases hc

end Session

/-! ### The start of a timeline -/

namespace Timeline

variable {limit : Nat} {t t' : Timeline}

/-- The moments stay as they are unless a step is recorded; then there is a new one. -/
def Grows (limit : Nat) (t : Timeline) (recorded : Bool) (t' : Timeline) : Prop :=
  recorded = false ∧ t'.moments = t.moments
    ∨ recorded = true ∧ ∃ moment, t'.moments = (t.record limit moment).moments

/-- A timeline that began with a tree and of which no moment is forgotten yet, after at most
`steps` steps. -/
structure BeganWith (t : Timeline) (tree : Style) (steps : Nat) : Prop where
  first : t.moments[0]?.map Moment.tree = some tree
  length_le : t.moments.length ≤ steps + 1

theorem beganWith_start (tree : Style) :
  (start tree).BeganWith tree 0
  := ⟨rfl, Nat.le_refl 1⟩

theorem moments_record_of_lt (h : t.cursor < limit) (moment : Moment) :
  (t.record limit moment).moments = t.moments.take (t.cursor + 1) ++ [moment]
  := by
  change List.drop (t.cursor + 1 - limit) _ = _
  rw [Nat.sub_eq_zero_of_le h, List.drop_zero]

theorem BeganWith.grow {tree : Style} {steps : Nat} (h : t.BeganWith tree steps) {recorded : Bool}
    (hgrows : t.Grows limit recorded t') (hlimit : steps + recorded.toNat ≤ limit) :
  t'.BeganWith tree (steps + recorded.toNat)
  := by
  obtain ⟨hfirst, hlength⟩ := h
  rcases hgrows with ⟨rfl, hsame⟩ | ⟨rfl, moment, hmoment⟩
  · constructor
    · rw [hsame]
      exact hfirst
    · rw [hsame]
      exact hlength
  · have hlt := t.cursor_lt
    rw [Bool.toNat_true] at hlimit ⊢
    rw [moments_record_of_lt (by omega)] at hmoment
    constructor
    · rw [hmoment, List.getElem?_append_left, List.getElem?_take_of_lt (Nat.succ_pos _)]
      · exact hfirst
      · rw [List.length_take_of_le hlt]
        apply Nat.succ_pos
    · rw [hmoment, List.length_append, List.length_take_of_le hlt, List.length_singleton]
      omega

/-- Undoing until there is nothing left moves the cursor to the first moment. -/
theorem exists_undo_all (limit : Nat) (t : Timeline) :
  ∃ (descriptions : List String) (last : Timeline),
    Command.run (step limit) t (List.replicate (t.cursor + 1) .undo)
        = (descriptions.map (fun d => .moved (some d)) ++ [.moved none], last)
      ∧ descriptions.length = t.cursor ∧ last.moments = t.moments ∧ last.cursor = 0
      ∧ last.batch = t.batch
  := by
  generalize hn : t.cursor = n
  induction n generalizing t with
  | zero =>
    use [], t
    refine ⟨?_, rfl, rfl, hn, rfl⟩
    simp only [List.replicate, Command.run, step, undo_of_zero hn]
    rfl
  | succ n ih =>
    have hlt := t.cursor_lt
    have hmoment := List.getElem?_eq_getElem (l := t.moments) (i := n) (by omega)
    obtain ⟨t', hundo, hmoments, hcursor, hbatch, -⟩ := undo_of_succ hn hmoment
    obtain ⟨descriptions, last, hrun, hlength, hmoments', hcursor', hbatch'⟩ := ih t' hcursor
    use t.present.description :: descriptions, last
    refine ⟨?_, ?_, hmoments'.trans hmoments, hcursor', hbatch'.trans hbatch⟩
    · rw [List.replicate_succ, Command.run, step, hundo]
      dsimp only
      rw [hrun]
      rfl
    · rw [List.length_cons, hlength]

end Timeline

theorem Command.orderly_undo (n : Nat) :
  Orderly 0 (List.replicate n undo)
  := by
  induction n with
  | zero => trivial
  | succ n ih => exact ⟨rfl, ih⟩

namespace StandsFor

variable {limit : Nat} {s : Session} {t : Timeline}

theorem of_batch_eq_none (h : StandsFor limit s t) (hbatch : s.history.batch = none) :
  t.batch = none ∧ s.engine.root = t.present.tree
  := by
  rcases h.batch_cases with ⟨-, hbatch', hroot⟩ | ⟨inner, changed, hsome, -⟩
  · exact ⟨hbatch', hroot⟩
  · rw [hbatch] at hsome
    cases hsome

/-- A session knows which commands record a step: these are the ones that give its timeline a
new moment. -/
theorem grows (h : StandsFor limit s t) (c : Command) :
  t.Grows limit (s.records c) (t.step limit c).2
  := by
  cases c with
  | execute m description =>
    rw [Timeline.step, ← h.root_eq]
    cases happly : m.apply s.engine.root with
    | error error =>
      left
      rw [Session.records, happly]
      exact ⟨Bool.and_false _, rfl⟩
    | ok tree =>
      rcases h.batch_cases with ⟨hbatch, hbatch', -⟩ | ⟨inner, changed, hbatch, hbatch', -⟩
      · right
        dsimp only
        rw [Session.records, hbatch, happly, Timeline.change_of_closed hbatch']
        exact ⟨rfl, _, rfl⟩
      · left
        dsimp only
        rw [Session.records, hbatch, Timeline.change_of_open hbatch']
        exact ⟨rfl, rfl⟩
  | undo =>
    left
    rw [Timeline.step, Timeline.undo]
    split <;> exact ⟨rfl, rfl⟩
  | redo =>
    left
    rw [Timeline.step, Timeline.redo]
    split <;> exact ⟨rfl, rfl⟩
  | openBatch =>
    left
    rw [Timeline.step, Timeline.openBatch]
    split <;> exact ⟨rfl, rfl⟩
  | closeBatch description =>
    rw [Timeline.step, Timeline.closeBatch.eq_def, Session.records]
    rcases h.batch_cases with ⟨hbatch, hbatch', -⟩
      | ⟨inner, changed, hbatch, hbatch', -, hunchanged⟩
    · rw [hbatch, hbatch']
      exact Or.inl ⟨rfl, rfl⟩
    · rw [hbatch, hbatch']
      cases inner with
      | succ inner =>
        left
        simp
      | zero =>
        dsimp only
        split
        · next hsame =>
          left
          simp [hsame]
        · next hne =>
          right
          have hchanged : changed = true := Bool.of_not_eq_false (mt hunchanged hne)
          refine ⟨?_, _, rfl⟩
          simp [hchanged, Ne.symm hne]

/-- Undoing until there is nothing left gives the tree of the first moment. -/
theorem exists_undo_all (h : StandsFor limit s t) (hclosed : t.batch = none) {tree : Style}
    (htree : t.moments[0]?.map Moment.tree = some tree) :
  ∃ (descriptions : List String) (last : Session),
    Command.run Session.step s (List.replicate (descriptions.length + 1) .undo)
        = (descriptions.map (fun d => .moved (some d)) ++ [.moved none], last)
      ∧ last.engine.root = tree
  := by
  obtain ⟨descriptions, last, hrun, hlength, hmoments, hcursor, hbatch⟩ := t.exists_undo_all limit
  have horderly : Command.Orderly t.openBatches (List.replicate (t.cursor + 1) .undo) := by
    rw [Timeline.openBatches, hclosed]
    apply Command.orderly_undo
  obtain ⟨houtcomes, hlast⟩ := h.run (by simp [Command.Carries]) horderly
  rw [hrun] at houtcomes hlast
  use descriptions, (Command.run Session.step s (List.replicate (descriptions.length + 1) .undo)).2
  rw [hlength]
  constructor
  · exact Prod.ext houtcomes rfl
  · obtain ⟨moment, hmoment, rfl⟩ := Option.map_eq_some_iff.mp htree
    have hpresent : last.present = moment := by
      rw [Timeline.present_eq_iff, hcursor, hmoments]
      exact hmoment
    rw [hlast.root_eq, Timeline.tree, hbatch, hclosed, ← hpresent]

end StandsFor

end BladeStyle
