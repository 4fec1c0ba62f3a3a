import BladeStyle.Proofs.Editing.Restoring
import BladeStyle.Proofs.Editing.Sync

/-!
# Refusals and the limit of a history

A mutation that is refused changes nothing, and an undo or a redo that is refused only makes
the history forget its steps.  This holds of every session, also if the engine was called behind
the back of the history or exchanged for another one, so that the recorded steps do not match
its tree.  However such calls are mixed with commands, the steps to take back and those to take
forward are together no more than the history keeps.
-/

namespace BladeStyle

/-! ### Calls besides the history -/

/-- What is asked of a history and of the engine that it changes.  The engine can be called
without the history, and another engine can take its place. -/
inductive Request where
  | command (c : Command)
  | clear
  | call (c : Call)
  | exchange (engine : Engine)

namespace Session

/-- The session after a request. -/
def serve (s : Session) : Request → Session
  | .command c => (s.step c).2
  | .clear => { s with history := s.history.clear }
  | .call c => { s with engine := (s.engine.answer c).2 }
  | .exchange engine => { s with engine }

/-- The session after a list of requests. -/
def after (s : Session) : List Request → Session
  | [] => s
  | r :: rs => (s.serve r).after rs

/-! ### Refusals -/

variable {s : Session} {c : Command}

/-- A session refuses a mutation with the error and in the state that performing it left. -/
theorem afterMutation_eq_refused_iff {made : Except EditError Unit × History × Engine}
    {error : EditError} {next : Session} :
  afterMutation made = (.refused error, next)
    ↔ made = (.error error, next.history, next.engine)
  := by
  obtain ⟨error' | _, history, engine⟩ := made
  · obtain ⟨history', engine'⟩ := next
    simp [afterMutation]
  · simp [afterMutation]

/-- A mutation is refused exactly if the engine refuses it, and then the session stays as it
is. -/
theorem step_execute_eq_refused_iff {m : Mutation} {description : String} {error : EditError}
    {next : Session} :
  s.step (.execute m description) = (.refused error, next)
    ↔ s.engine.apply m = .error error ∧ next = s
  := by
  rw [step, afterMutation_eq_refused_iff, History.perform_eq_error_iff]
  apply and_congr_right
  intro _
  obtain ⟨history, engine⟩ := next
  obtain ⟨history', engine'⟩ := s
  simp

/-- An undo or a redo finds no step exactly if there is none of its kind, and then the session
stays as it is. -/
theorem step_eq_moved_none_iff (hc : c.isMove = true) {next : Session} :
  s.step c = (.moved none, next) ↔ s.moves c = false ∧ next = s
  := by
  constructor
  · intro h
    cases hmoves : s.moves c with
    | false =>
      rw [step_of_moves_eq_false hc hmoves] at h
      exact ⟨rfl, (Prod.mk.inj h).2.symm⟩
    | true =>
      obtain ⟨⟨undoable, redoable, maxDepth, batch⟩, engine⟩ := s
      cases c with
      | undo =>
        cases undoable with
        | nil => cases hmoves
        | cons last rest =>
          simp only [step, History.undo] at h
          rcases hundo : last.change.undo engine with ⟨_ | _, undone⟩ <;>
            simp [hundo, afterMove] at h
      | redo =>
        cases redoable with
        | nil => cases hmoves
        | cons next rest =>
          simp only [step, History.redo] at h
          rcases hredo : next.change.redo engine with ⟨_ | _, redone⟩ <;>
            simp [hredo, afterMove] at h
      | execute | openBatch | closeBatch => cases hc
  · rintro ⟨hmoves, rfl⟩
    apply step_of_moves_eq_false hc hmoves

end Session

/-! ### The limit -/

/-- A history that keeps `limit` steps and has no more, those to take back and those to take
forward together. -/
structure History.Bounded (limit : Nat) (h : History) : Prop where
  maxDepth : h.maxDepth = limit
  length_le : h.undoable.length + h.redoable.length ≤ limit

namespace History

variable {limit : Nat} {h : History}

/-- An empty history keeps any limit. -/
theorem bounded_empty (limit : Nat) :
  (empty limit).Bounded limit
  := ⟨rfl, Nat.zero_le limit⟩

/-- Clearing a history keeps its limit. -/
theorem Bounded.clear (hh : h.Bounded limit) :
  h.clear.Bounded limit
  := ⟨hh.maxDepth, Nat.zero_le limit⟩

/-- The open batch does not count among the steps that are kept. -/
theorem Bounded.withBatch (hh : h.Bounded limit) (batch : Option Batch) :
  { h with batch }.Bounded limit
  := ⟨hh.maxDepth, hh.length_le⟩

/-- A new step takes the place of the oldest one if need be, and of all steps to take
forward. -/
theorem Bounded.push (hh : h.Bounded limit) (step : Step) :
  (h.push step).Bounded limit
  where
  maxDepth := hh.maxDepth
  length_le := by
    have hle : h.undoable.length ≤ h.maxDepth := by
      rw [hh.maxDepth]
      exact (Nat.le_add_right _ _).trans hh.length_le
    have hredoable : (h.push step).redoable = [] := rfl
    rw [undoable_push hle, hredoable, List.length_nil, Nat.add_zero, ← hh.maxDepth]
    apply List.length_take_le

/-- Opening a batch keeps the limit. -/
theorem Bounded.openBatch (hh : h.Bounded limit) (e : Engine) :
  (h.openBatch e).Bounded limit
  := by
  rw [History.openBatch]
  split <;> apply hh.withBatch

/-- Closing a batch keeps the limit, as it pushes one step at most. -/
theorem Bounded.closeBatch (hh : h.Bounded limit) (e : Engine) (description : String) :
  (h.closeBatch e description).Bounded limit
  := by
  rw [History.closeBatch.eq_def]
  split
  · exact hh
  · apply hh.withBatch
  · dsimp only
    split
    · apply (hh.withBatch none).push
    · apply hh.withBatch

/-- A mutation keeps the limit, be it refused, one of a batch or a step by itself. -/
theorem Bounded.perform (hh : h.Bounded limit) (e : Engine) (m : Mutation) (description : String) :
  (h.perform e m description).2.1.Bounded limit
  := by
  rw [History.perform]
  split
  · exact hh
  · split
    · apply hh.withBatch
    · split <;> apply hh.push

/-- A step that is taken back is one to take forward from then on. -/
theorem Bounded.undo (hh : h.Bounded limit) (e : Engine) :
  (h.undo e).2.1.Bounded limit
  := by
  obtain ⟨hdepth, hlength⟩ := hh
  rw [History.undo]
  split
  · exact ⟨hdepth, hlength⟩
  · next step rest hundoable =>
    split
    · exact ⟨hdepth, Nat.zero_le limit⟩
    · use hdepth
      simp only [hundoable, List.length_cons] at hlength ⊢
      omega

/-- A redo keeps the limit: what it moves was counted before. -/
theorem Bounded.redo (hh : h.Bounded limit) (e : Engine) :
  (h.redo e).2.1.Bounded limit
  := by
  obtain ⟨hdepth, hlength⟩ := hh
  rw [History.redo]
  split
  · exact ⟨hdepth, hlength⟩
  · next step rest hredoable =>
    split
    · exact ⟨hdepth, Nat.zero_le limit⟩
    · use hdepth
      simp only [hredoable, List.length_cons] at hlength ⊢
      omega

end History

namespace Session

variable {limit : Nat} {s : Session}

theorem history_afterMove (moved : Except EditError (Option String) × History × Engine) :
  (afterMove moved).2.history = moved.2.1
  := by
  obtain ⟨outcome, history, engine⟩ := moved
  cases outcome <;> rfl

theorem history_afterMutation (made : Except EditError Unit × History × Engine) :
  (afterMutation made).2.history = made.2.1
  := by
  obtain ⟨error | _, history, engine⟩ := made <;> rfl

/-- No command makes a history exceed its limit. -/
theorem bounded_step (h : s.history.Bounded limit) (c : Command) :
  (s.step c).2.history.Bounded limit
  := by
  cases c with
  | execute m description =>
    rw [step, history_afterMutation]
    apply h.perform
  | undo =>
    rw [step, history_afterMove]
    apply h.undo
  | redo =>
    rw [step, history_afterMove]
    apply h.redo
  | openBatch => apply h.openBatch
  | closeBatch description => apply h.closeBatch

/-- No request makes a history longer than its limit. -/
theorem bounded_serve (h : s.history.Bounded limit) (r : Request) :
  (s.serve r).history.Bounded limit
  := by
  cases r with
  | command c => apply bounded_step h c
  | clear => apply h.clear
  | call | exchange => exact h

/-- No run of requests makes a history longer than its limit. -/
theorem bounded_after (h : s.history.Bounded limit) (requests : List Request) :
  (s.after requests).history.Bounded limit
  := by
  induction requests generalizing s with
  | nil => exact h
  | cons r requests ih => apply ih (bounded_serve h r)

/-- In every session, a mutation is refused exactly if the engine refuses it, and then nothing
changes; an undo or a redo that is refused leaves the engine as it is, and no step is left; and
one that finds no step changes nothing.  However commands are mixed with other calls, a history
that was empty has never more steps than it keeps, those to take back and those to take forward
together. -/
theorem refused_commands_and_limit :
  (∀ (s : Session) (m : Mutation) (description : String) (error : EditError) (next : Session),
      s.step (.execute m description) = (.refused error, next)
        ↔ s.engine.apply m = .error error ∧ next = s)
    ∧ (∀ (s : Session) (c : Command) (error : EditError) (next : Session), c.isMove = true →
      s.step c = (.refused error, next) →
        next.engine = s.engine ∧ next.history.undoable = [] ∧ next.history.redoable = [])
    ∧ (∀ (s : Session) (c : Command) (next : Session), c.isMove = true →
      (s.step c = (.moved none, next) ↔ s.moves c = false ∧ next = s))
    ∧ ∀ (limit : Nat) (engine : Engine) (requests : List Request),
      ((start limit engine).after requests).history.undoable.length
        + ((start limit engine).after requests).history.redoable.length ≤ limit
  := by
  refine ⟨fun _ _ _ _ _ => step_execute_eq_refused_iff, ?_,
    fun _ _ _ hc => step_eq_moved_none_iff hc, ?_⟩
  · intro s c error next hc h
    have holdsNothing := step_of_refused hc (congrArg Prod.fst h)
    rw [h] at holdsNothing
    obtain rfl : next = ⟨s.history.clear, s.engine⟩ := holdsNothing
    exact ⟨rfl, rfl, rfl⟩
  · intro limit engine requests
    apply (bounded_after (History.bounded_empty limit) requests).length_le

/-- Three mutations where two steps are kept, an undo, and another tree that is put in place
without the history. -/
def staleRequests : List Request :=
  [ .command (.execute ⟨[0], .setComment "warm"⟩ "comment"),
    .command (.execute ⟨[], .setComment "sky"⟩ "name"),
    .command (.execute ⟨[], .addParam 1 (.style (Builtin.bare "Blue" .color))⟩ "add blue"),
    .command .undo,
    .call (.replaceRoot (Builtin.bare "White" .color)) ]

theorem refused_commands_and_limit_stale :
  ∃ s last : Session, s = (start 2 (Engine.ofStyle redGradient)).after staleRequests
    ∧ s.history.undoable.length = 1 ∧ s.history.redoable.length = 1
    ∧ s.history.undoable.length + s.history.redoable.length ≤ 2
    ∧ s.step (.execute ⟨[3], .setComment "lost"⟩ "lost") = (.refused (.noNode [3]), s)
    ∧ s.step .redo = (.refused (.param [] "White" (.indexOutOfRange "White" 1 0)), last)
    ∧ last.engine = s.engine ∧ last.history.undoable = [] ∧ last.history.redoable = []
    ∧ last.step .undo = (.moved none, last)
  := by
  obtain ⟨hexecute, hmove, hnone, hlimit⟩ := refused_commands_and_limit
  have hredo : (((start 2 (Engine.ofStyle redGradient)).after staleRequests).step .redo).1
      = .refused (.param [] "White" (.indexOutOfRange "White" 1 0)) := by
    decide +kernel
  have hlast := hmove _ .redo _ _ rfl (Prod.ext hredo rfl)
  refine ⟨_, _, rfl, ?_, ?_, hlimit 2 _ staleRequests, ?_, Prod.ext hredo rfl, hlast.1, hlast.2.1,
    hlast.2.2, ?_⟩
  · decide +kernel
  · decide +kernel
  · apply (hexecute _ _ _ _ _).mpr
    exact ⟨by decide +kernel, rfl⟩
  · apply (hnone _ .undo _ rfl).mpr
    exact ⟨by decide +kernel, rfl⟩

end Session

end BladeStyle
