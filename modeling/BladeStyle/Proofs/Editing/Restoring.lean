import BladeStyle.Proofs.Editing.Records

/-!
# Taking everything back

A batch in which no mutation takes effect leaves no step, so steps may be taken back and
forward while it is open.  If batches are either of this kind or free of moves, which are the
undos and redos that find a step, refused or not, then undo and redo are never refused, and
taking back one step after the other leads to the tree at the start, unless more steps were
recorded than are kept.  In a batch that has both, the tree is not the one that the recorded
steps are about: an inverse may be refused, or the tree at the start is lost.
-/

namespace BladeStyle

/-! ### Sessions with moves in quiet batches -/

/-- How a session goes along a timeline.  While no batch is open or a mutation has taken
effect in the open one, it stands for the timeline.  A batch in which nothing has changed is
left out; if no step has been moved in it either, it has found the tree that is shown. -/
inductive Follows (limit : Nat) (moved : Bool) (s : Session) (t : Timeline) : Prop where
  | closed (hbatch : s.history.batch = none) (standsFor : StandsFor limit s t)
  | quiet {b : Batch} (hbatch : s.history.batch = some b) (unchanged : b.changed = false)
      (standsFor : StandsFor limit s.withoutBatch t)
      (found : moved = false → b.before = s.engine.root)
  | edited {b : Batch} (hbatch : s.history.batch = some b) (changed : b.changed = true)
      (still : moved = false) (standsFor : StandsFor limit s t)

namespace Follows

variable {limit : Nat} {moved : Bool} {s : Session} {t : Timeline}

/-- After a command the session goes along a timeline again, with at most one moment more,
and the command is not refused if it is an undo or a redo. -/
def Advances (limit : Nat) (moved : Bool) (s : Session) (t : Timeline) (c : Command) : Prop :=
  (c.isMove = true → ∃ description, (s.step c).1 = .moved description)
    ∧ ∃ t', Follows limit (s.movedAfter moved c) (s.step c).2 t' ∧ t.Grows limit (s.records c) t'

theorem standsFor_of_closed (h : Follows limit moved s t) (hbatch : s.history.batch = none) :
  StandsFor limit s t
  := by
  cases h with
  | closed _ standsFor => exact standsFor
  | quiet hsome | edited hsome =>
    rw [hbatch] at hsome
    cases hsome

/-- A batch in which nothing has changed yet is left out. -/
theorem of_unchanged (standsFor : StandsFor limit s.withoutBatch t) {b : Batch}
    (unchanged : b.changed = false) (found : moved = false → b.before = s.engine.root) :
  Follows limit moved ⟨{ s.history with batch := some b }, s.engine⟩ t
  := quiet (s := ⟨{ s.history with batch := some b }, s.engine⟩) rfl unchanged standsFor found

variable {c : Command}

/-- Only an undo or a redo has to have an outcome of its own. -/
theorem advances_of_exists (hc : c.isMove = false)
    (h : ∃ t', Follows limit (s.movedAfter moved c) (s.step c).2 t'
      ∧ t.Grows limit (s.records c) t') :
  Advances limit moved s t c
  := by
  refine ⟨?_, h⟩
  intro hmove
  rw [hc] at hmove
  cases hmove

/-- A command that changes nothing and moves no step. -/
theorem exists_of_step_eq_self (h : Follows limit moved s t) (hstep : (s.step c).2 = s)
    (hmoves : s.moves c = false) (hrecords : s.records c = false) :
  ∃ t', Follows limit (s.movedAfter moved c) (s.step c).2 t' ∧ t.Grows limit (s.records c) t'
  := by
  have hmoved : s.movedAfter moved c = (s.history.batch.isSome && moved) := by
    rw [Session.movedAfter, hstep, hmoves, Bool.or_false]
  rw [hstep, hmoved]
  refine ⟨t, ?_, Or.inl ⟨hrecords, rfl⟩⟩
  cases h with
  | closed hbatch standsFor => apply closed hbatch standsFor
  | quiet hbatch unchanged standsFor found =>
    rw [hbatch, Option.isSome_some, Bool.true_and]
    apply quiet hbatch unchanged standsFor found
  | edited hbatch changed still standsFor =>
    rw [still, Bool.and_false]
    apply edited hbatch changed rfl standsFor

/-- While no batch is open, every command is allowed. -/
theorem advances_of_closed (h : StandsFor limit s t) (hbatch : s.history.batch = none)
    (hcarries : c.Carries Style.Proper) :
  Advances limit moved s t c
  := by
  have hopen : t.openBatches = 0 := by
    rw [Timeline.openBatches, (h.of_batch_eq_none hbatch).1]
  have hallowed : c.Allowed t.openBatches := by
    rw [hopen]
    cases c <;> trivial
  obtain ⟨houtcome, hnext⟩ := h.step hcarries hallowed
  constructor
  · intro hc
    rw [houtcome]
    cases c with
    | undo | redo => exact ⟨_, rfl⟩
    | execute | openBatch | closeBatch => cases hc
  · have hopen' := Timeline.openBatches_step limit t c
    rw [hopen] at hopen'
    cases c with
    | execute | undo | redo | closeBatch =>
      refine ⟨_, ?_, h.grows _⟩
      apply closed (hnext.closed hopen').1 hnext
    | openBatch =>
      refine ⟨t, ?_, Or.inl ⟨rfl, rfl⟩⟩
      rw [Session.step, History.openBatch, hbatch]
      rw [← Session.withoutBatch_of_none hbatch] at h
      exact of_unchanged h rfl fun _ => rfl

/-- An undo or a redo while no mutation has taken effect in a batch. -/
theorem advances_of_isMove (h : Follows limit moved s t) (hc : c.isMove = true)
    (hcarries : c.Carries Style.Proper)
    (hseparate : ¬ (s.movedAfter moved c = true ∧ (s.step c).2.history.isEdited = true)) :
  Advances limit moved s t c
  := by
  cases hmoves : s.moves c with
  | false =>
    have hstep := Session.step_of_moves_eq_false hc hmoves
    constructor
    · intro _
      use none
      rw [hstep]
    · apply h.exists_of_step_eq_self _ hmoves (Session.records_of_isMove hc)
      rw [hstep]
  | true =>
    obtain ⟨hsame, hnext, hbatch'⟩ := Session.step_of_isMove (s := s) hc
    have hmoved : s.movedAfter moved c = s.history.batch.isSome := by
      rw [Session.movedAfter, hbatch', hmoves, Bool.or_true, Bool.and_true]
    cases h with
    | closed hbatch standsFor => apply advances_of_closed standsFor hbatch hcarries
    | edited hbatch changed =>
      -- a batch cannot have both
      exfalso
      apply hseparate
      rw [hmoved, History.isEdited, hbatch', hbatch]
      exact ⟨rfl, changed⟩
    | quiet hbatch unchanged standsFor found =>
      have hclosed : Advances limit moved s.withoutBatch t c :=
        advances_of_closed standsFor rfl hcarries
      obtain ⟨houtcome, t', hfollows, hgrows⟩ := hclosed
      constructor
      · rw [hsame]
        exact houtcome
      · use t'
        constructor
        · apply quiet (hbatch'.trans hbatch) unchanged
          · rw [hnext]
            apply hfollows.standsFor_of_closed (Session.step_of_isMove hc).2.2
          · rw [hmoved, hbatch]
            nofun
        · rw [Session.records_of_isMove hc] at hgrows ⊢
          exact hgrows

/-- A batch that has found the tree that is shown can be opened on the timeline as well. -/
theorem standsFor_of_found (h : StandsFor limit s.withoutBatch t) {b : Batch}
    (hbatch : s.history.batch = some b) (hfound : b.before = s.engine.root) :
  StandsFor limit s { t with batch := some (b.inner, s.engine.root) }
  := by
  obtain ⟨inner, before, changed⟩ := b
  obtain rfl : before = s.engine.root := hfound
  have hroot : s.engine.root = t.present.tree := (h.of_batch_eq_none rfl).2
  apply h.withBatch (b := s.history.batch)
  rw [hbatch, hroot]
  apply BatchAgrees.opened (h.proper t.present t.present_mem)
  intro _
  rfl

/-- A mutation that takes effect in an open batch. -/
theorem advances_of_execute_of_open (h : StandsFor limit s t) {b : Batch}
    (hbatch : s.history.batch = some b) {m : Mutation} (hm : m.edit.Carries Style.Proper)
    {tree : Style} (happly : m.apply s.engine.root = .ok tree) {description : String}
    (hstill : s.movedAfter moved (.execute m description) = false) :
  Advances limit moved s t (.execute m description)
  := by
  refine advances_of_exists rfl ⟨_, ?_, h.grows (.execute m description)⟩
  have hnext : (s.step (.execute m description)).2.history.batch
      = some { b with changed := true } := by
    rw [Session.step, History.perform_of_open hbatch happly]
    rfl
  apply edited hnext rfl hstill (h.execute hm description).2

theorem advances_of_execute (h : Follows limit moved s t) {m : Mutation} {description : String}
    (hm : m.edit.Carries Style.Proper)
    (hseparate : ¬ (s.movedAfter moved (.execute m description) = true
      ∧ (s.step (.execute m description)).2.history.isEdited = true)) :
  Advances limit moved s t (.execute m description)
  := by
  cases happly : m.apply s.engine.root with
  | error error =>
    refine advances_of_exists rfl (h.exists_of_step_eq_self ?_ rfl ?_)
    · rw [Session.step, History.perform_of_error happly]
      rfl
    · rw [Session.records, happly]
      apply Bool.and_false
  | ok tree =>
    have hstill {b : Batch} (hbatch : s.history.batch = some b) :
        s.movedAfter moved (.execute m description) = false := by
      apply eq_false_of_ne_true
      intro hmoved
      apply hseparate ⟨hmoved, _⟩
      rw [Session.step, History.perform_of_open hbatch happly, History.isEdited]
      rfl
    cases h with
    | closed hbatch standsFor =>
      apply advances_of_closed (c := .execute m description) standsFor hbatch hm
    | edited hbatch changed still standsFor =>
      apply advances_of_execute_of_open standsFor hbatch hm happly (hstill hbatch)
    | quiet hbatch unchanged standsFor found =>
      have hmoved : moved = false := by
        simpa [Session.movedAfter, Session.step, History.perform_of_open hbatch happly,
          Session.afterMutation, Session.moves] using hstill hbatch
      -- the batch is opened on the timeline only now that it is sure to have found its present
      have hopened := standsFor_of_found standsFor hbatch (found hmoved)
      exact advances_of_execute_of_open hopened hbatch hm happly (hstill hbatch)

theorem advances_of_openBatch (h : Follows limit moved s t) :
  Advances limit moved s t .openBatch
  := by
  cases h with
  | closed hbatch standsFor => apply advances_of_closed (c := .openBatch) standsFor hbatch trivial
  | @quiet b hbatch unchanged standsFor found =>
    refine advances_of_exists rfl ⟨t, ?_, Or.inl ⟨rfl, rfl⟩⟩
    have hstep : s.step .openBatch
        = (.done,
          ⟨{ s.history with batch := some { b with inner := b.inner + 1 } }, s.engine⟩) := by
      rw [Session.step, History.openBatch, hbatch]
    have hmoved : s.movedAfter moved .openBatch = moved := by
      rw [Session.movedAfter, hstep]
      apply Bool.or_false
    rw [hstep, hmoved]
    exact of_unchanged standsFor unchanged found
  | @edited b hbatch changed still standsFor =>
    refine advances_of_exists rfl ⟨_, ?_, standsFor.grows .openBatch⟩
    have hnext : (s.step .openBatch).2.history.batch = some { b with inner := b.inner + 1 } := by
      rw [Session.step, History.openBatch, hbatch]
    apply edited hnext changed _ standsFor.openBatch
    rw [Session.movedAfter, still]
    apply Bool.and_false

theorem advances_of_closeBatch (h : Follows limit moved s t) (description : String) :
  Advances limit moved s t (.closeBatch description)
  := by
  cases h with
  | closed hbatch standsFor =>
    apply advances_of_closed (c := .closeBatch description) standsFor hbatch trivial
  | @quiet b hbatch unchanged standsFor found =>
    obtain ⟨inner, before, changed⟩ := b
    obtain rfl : changed = false := unchanged
    have hrecords : s.records (.closeBatch description) = false := by
      simp [Session.records, hbatch]
    refine advances_of_exists rfl ⟨t, ?_, Or.inl ⟨hrecords, rfl⟩⟩
    cases inner with
    | zero =>
      have hstep : s.step (.closeBatch description) = (.done, s.withoutBatch) := by
        rw [Session.step, History.closeBatch.eq_def, hbatch]
        rfl
      rw [hstep]
      apply closed rfl standsFor
    | succ inner =>
      have hstep : s.step (.closeBatch description)
          = (.done, ⟨{ s.history with batch := some ⟨inner, before, false⟩ }, s.engine⟩) := by
        rw [Session.step, History.closeBatch.eq_def, hbatch]
      have hmoved : s.movedAfter moved (.closeBatch description) = moved := by
        rw [Session.movedAfter, hstep]
        apply Bool.or_false
      rw [hstep, hmoved]
      exact of_unchanged standsFor rfl found
  | @edited b hbatch changed still standsFor =>
    obtain ⟨inner, before, _⟩ := b
    obtain rfl := changed
    have hnext := standsFor.closeBatch description
    refine advances_of_exists rfl ⟨_, ?_, standsFor.grows (.closeBatch description)⟩
    cases inner with
    | zero =>
      apply closed _ hnext
      rw [History.closeBatch.eq_def, hbatch]
      dsimp only
      split <;> rfl
    | succ inner =>
      have hbatch' : (s.step (.closeBatch description)).2.history.batch
          = some ⟨inner, before, true⟩ := by
        rw [Session.step, History.closeBatch.eq_def, hbatch]
      apply edited hbatch' rfl _ hnext
      rw [Session.movedAfter, still]
      apply Bool.and_false

/-- Every command keeps a session going along a timeline. -/
theorem advances (h : Follows limit moved s t) (hcarries : c.Carries Style.Proper)
    (hseparate : ¬ (s.movedAfter moved c = true ∧ (s.step c).2.history.isEdited = true)) :
  Advances limit moved s t c
  := by
  cases c with
  | execute m description => apply h.advances_of_execute hcarries hseparate
  | undo | redo => apply h.advances_of_isMove rfl hcarries hseparate
  | openBatch => apply h.advances_of_openBatch
  | closeBatch description => apply h.advances_of_closeBatch

/-- The same for a list of commands, by induction on the list. -/
theorem run (h : Follows limit moved s t) {commands : List Command}
    (hcarries : ∀ c ∈ commands, c.Carries Style.Proper)
    (hseparate : Session.Separate moved s commands) :
  List.Forall₂ (fun c outcome => c.isMove = true → ∃ description, outcome = .moved description)
      commands (Command.run Session.step s commands).1
    ∧ ∃ moved' t', Follows limit moved' (Command.run Session.step s commands).2 t'
      ∧ ∀ tree steps, t.BeganWith tree steps → steps + s.recorded commands ≤ limit →
        t'.BeganWith tree (steps + s.recorded commands)
  := by
  induction commands generalizing moved s t with
  | nil => exact ⟨.nil, moved, t, h, fun tree steps hbegan _ => hbegan⟩
  | cons c cs ih =>
    obtain ⟨hc, hcs⟩ := List.forall_mem_cons.mp hcarries
    obtain ⟨hhere, hafter⟩ := hseparate
    obtain ⟨houtcome, t₁, hfollows, hgrows⟩ := h.advances hc hhere
    obtain ⟨houtcomes, moved', t', hlast, hbegan⟩ := ih hfollows hcs hafter
    refine ⟨.cons houtcome houtcomes, moved', t', hlast, ?_⟩
    intro tree steps hstart hlimit
    rw [Session.recorded, ← Nat.add_assoc] at hlimit ⊢
    apply hbegan tree _ _ hlimit
    apply hstart.grow hgrows
    omega

end Follows

/-! ### Taking everything back -/

/-- Undo and redo are never refused in a session on a proper tree in which no batch has both a
mutation that takes effect and an undo or a redo that finds a step, refused or not; and unless
more steps were recorded than are kept, taking back one step after the other leads to the tree at
the start.  In any other session an undo or a redo that is refused leaves the tree alone and forgets
all steps. -/
theorem Session.undo_restores (limit : Nat) (e : Engine) (commands : List Command)
    (he : e.root.Proper) (hcarries : ∀ c ∈ commands, c.Carries Style.Proper)
    (hseparate : Separate false (start limit e) commands) :
  List.Forall₂ (fun c outcome => c.isMove = true → ∃ description, outcome = .moved description)
      commands (Command.run step (start limit e) commands).1
    ∧ ((Command.run step (start limit e) commands).2.history.batch = none →
      (start limit e).recorded commands ≤ limit →
        ∃ (descriptions : List String) (last : Session),
          Command.run step (Command.run step (start limit e) commands).2
              (List.replicate (descriptions.length + 1) .undo)
            = (descriptions.map (fun d => .moved (some d)) ++ [.moved none], last)
          ∧ last.engine.root = e.root)
    ∧ ∀ (s : Session) (c : Command) (error : EditError), c.isMove = true →
      (s.step c).1 = .refused error → (s.step c).2 = ⟨s.history.clear, s.engine⟩
  := by
  have hstart : Follows limit false (start limit e) (Timeline.start e.root) :=
    .closed rfl (StandsFor.start limit he)
  obtain ⟨houtcomes, moved, t, hlast, hbegan⟩ := hstart.run hcarries hseparate
  refine ⟨houtcomes, ?_, fun s c error hc => step_of_refused hc⟩
  intro hbatch hlimit
  have hstands := hlast.standsFor_of_closed hbatch
  rw [← Nat.zero_add (recorded _ _)] at hlimit
  apply hstands.exists_undo_all (hstands.of_batch_eq_none hbatch).1
  apply (hbegan e.root 0 (Timeline.beganWith_start e.root) hlimit).first

/-- A gradient of one colour. -/
def redGradient : Style :=
  .ofParams "Gradient" "Gradient" .color
    [(Builtin.takes "Color" [.color] (some (Builtin.bare "Red" .color))).asVariadic]

theorem proper_redGradient :
  redGradient.Proper
  := by
  apply Style.Everywhere.node
  · use Style.tailed_of_declared rfl (List.forall_mem_nil _)
    intro p hp
    obtain rfl := List.mem_singleton.mp hp
    have haccepts : ((CategorySet.ofList [.color]).inter CategorySet.nodes).accepts .color := by
      decide +kernel
    apply haccepts
  · intro p hp c hc
    obtain rfl := List.mem_singleton.mp hp
    obtain rfl := Slot.child.inj hc
    exact Style.Proper.of_params_eq_nil rfl rfl

/-- Commands with a step that is taken back and forward again in a batch of its own, and a
batch inside a batch that changes the tree. -/
def batchCommands : List Command :=
  [ .execute ⟨[0], .setComment "warm"⟩ "comment",
    .openBatch,
    .undo,
    .redo,
    .closeBatch "look",
    .openBatch,
    .execute ⟨[], .addParam 1 (.style (Builtin.bare "Blue" .color))⟩ "add blue",
    .openBatch,
    .execute ⟨[], .removeParam 0⟩ "remove red",
    .closeBatch "inner",
    .closeBatch "replace",
    .undo ]

theorem Session.undo_restores_redGradient :
  redGradient.Proper ∧ (∀ c ∈ batchCommands, c.Carries Style.Proper)
    ∧ Separate false (start 2 (Engine.ofStyle redGradient)) batchCommands
    ∧ (start 2 (Engine.ofStyle redGradient)).recorded batchCommands = 2
    ∧ List.Forall₂ (fun c outcome => c.isMove = true → ∃ description, outcome = .moved description)
      batchCommands (Command.run step (start 2 (Engine.ofStyle redGradient)) batchCommands).1
    ∧ ∃ (descriptions : List String) (last : Session),
      Command.run step (Command.run step (start 2 (Engine.ofStyle redGradient)) batchCommands).2
          (List.replicate (descriptions.length + 1) .undo)
        = (descriptions.map (fun d => .moved (some d)) ++ [.moved none], last)
      ∧ last.engine.root = redGradient
  := by
  have hblue : (Builtin.bare "Blue" .color).Proper := Style.Proper.of_params_eq_nil rfl rfl
  have hcarries : ∀ c ∈ batchCommands, c.Carries Style.Proper := by
    simp [batchCommands, Command.Carries, Edit.Carries, hblue]
  have hseparate : Separate false (start 2 (Engine.ofStyle redGradient)) batchCommands := by
    decide +kernel
  have hrecorded : (start 2 (Engine.ofStyle redGradient)).recorded batchCommands = 2 := by
    decide +kernel
  obtain ⟨houtcomes, hrestores, -⟩ :=
    undo_restores 2 (Engine.ofStyle redGradient) batchCommands proper_redGradient hcarries hseparate
  refine ⟨proper_redGradient, hcarries, hseparate, hrecorded, houtcomes, hrestores ?_ ?_⟩
  · decide +kernel
  · exact Nat.le_of_eq hrecorded

/-- A recorded mutation, two commands in a batch, and then as many undos as there are steps
and one more. -/
def batchAfter (m : Mutation) (first second : Command) : List Command :=
  [ .execute m "recorded",
    .openBatch,
    first,
    second,
    .closeBatch "batch",
    .undo,
    .undo ]

/-- In a batch with both a mutation that takes effect and a move, the move may be refused, as
the child that the recorded step is about is gone.  Refused or not, and whichever of the two
comes first, taking back everything does not lead to the tree at the start. -/
theorem Session.undo_does_not_restore :
  redGradient.Proper
    ∧ (Command.run step (start 100 (Engine.ofStyle redGradient))
        (batchAfter ⟨[0], .setComment "warm"⟩ (.execute ⟨[], .detachStyle 0⟩ "detach") .undo)).1
      = [ .done, .done, .done, .refused (.noNode [0]), .done, .moved (some "batch"), .moved none ]
    ∧ ∀ commands ∈
        [ batchAfter ⟨[0], .setComment "warm"⟩ (.execute ⟨[], .detachStyle 0⟩ "detach") .undo,
          batchAfter ⟨[], .setComment "sky"⟩ (.execute ⟨[], .setComment "sea"⟩ "rename") .undo,
          batchAfter ⟨[], .setComment "sky"⟩ .undo (.execute ⟨[], .setComment "sea"⟩ "rename") ],
      (start 100 (Engine.ofStyle redGradient)).recorded commands = 2
        ∧ (Command.run step (start 100 (Engine.ofStyle redGradient)) commands).1.getLast?
          = some (.moved none)
        ∧ (Command.run step (start 100 (Engine.ofStyle redGradient)) commands).2.history.batch
          = none
        ∧ (Command.run step (start 100 (Engine.ofStyle redGradient)) commands).2.engine.root
          ≠ redGradient
  := by
  use proper_redGradient
  decide +kernel

end BladeStyle
