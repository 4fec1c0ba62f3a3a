import BladeStyle.Proofs.Editing.Steps
import BladeStyle.Registry.Builtin

/-!
# Histories are timelines

A session stands for a timeline if the steps of its history join the moments, the cursor is
behind the steps that can be taken back, and the tree is the one shown.  Every command that
is allowed keeps it so and has the same outcome on both sides, so an orderly session on a
proper tree runs like the timeline of that tree.
-/

namespace BladeStyle

/-! ### The relation -/

/-- The batch of a history and that of a timeline agree on the trees: the one shown is the
present one if no batch is open or nothing has happened in it. -/
inductive BatchAgrees (present root : Style) : Option Batch → Option (Nat × Style) → Prop where
  | closed (h : root = present) : BatchAgrees present root none none
  | opened {inner : Nat} {changed : Bool} (proper : root.Proper)
      (unchanged : changed = false → root = present) :
      BatchAgrees present root (some ⟨inner, present, changed⟩) (some (inner, root))

/-- A session stands for a timeline whose trees are proper. -/
structure StandsFor (limit : Nat) (s : Session) (t : Timeline) : Prop where
  joined : Joined s.history.steps t.moments
  cursor : s.history.undoable.length = t.cursor
  maxDepth : s.history.maxDepth = limit
  bounded : t.moments.length ≤ limit + 1
  proper : ∀ moment ∈ t.moments, moment.tree.Proper
  batch : BatchAgrees t.present.tree s.engine.root s.history.batch t.batch

namespace StandsFor

variable {limit : Nat} {s : Session} {t : Timeline}

/-- A new session stands for the timeline that starts with its tree. -/
theorem start (limit : Nat) {e : Engine} (he : e.root.Proper) :
  StandsFor limit (Session.start limit e) (Timeline.start e.root)
  where
  joined := Joined.single _
  cursor := rfl
  maxDepth := rfl
  bounded := Nat.le_add_left 1 limit
  proper moment hmoment := by
    obtain rfl := List.mem_singleton.mp hmoment
    exact he
  batch := BatchAgrees.closed rfl

/-- Either neither side has an open batch, or both have one of the same depth, and the
tree is the one of that batch. -/
theorem batch_cases (h : StandsFor limit s t) :
  (s.history.batch = none ∧ t.batch = none ∧ s.engine.root = t.present.tree)
    ∨ ∃ inner changed, s.history.batch = some ⟨inner, t.present.tree, changed⟩
        ∧ t.batch = some (inner, s.engine.root) ∧ s.engine.root.Proper
        ∧ (changed = false → s.engine.root = t.present.tree)
  := by
  have hbatch := h.batch
  generalize s.history.batch = b, t.batch = b' at hbatch
  cases hbatch with
  | closed hroot => exact Or.inl ⟨rfl, rfl, hroot⟩
  | @opened inner changed proper unchanged =>
    exact Or.inr ⟨inner, changed, rfl, rfl, proper, unchanged⟩

/-- Where the timeline has no open batch the session has none either and shows the present
tree. -/
theorem closed (h : StandsFor limit s t) (hclosed : t.openBatches = 0) :
  s.history.batch = none ∧ t.batch = none ∧ s.engine.root = t.present.tree
  := by
  rcases h.batch_cases with hnone | ⟨inner, changed, -, hbatch, -⟩
  · exact hnone
  · rw [Timeline.openBatches, hbatch] at hclosed
    cases hclosed

/-- The tree of a session is the one that its timeline shows. -/
theorem root_eq (h : StandsFor limit s t) :
  s.engine.root = t.tree
  := by
  rcases h.batch_cases with ⟨-, hbatch, hroot⟩ | ⟨inner, changed, -, hbatch, -⟩
  · rw [Timeline.tree, hbatch]
    exact hroot
  · rw [Timeline.tree, hbatch]

/-- The tree of a session that stands for a timeline is proper. -/
theorem proper_root (h : StandsFor limit s t) :
  s.engine.root.Proper
  := by
  rcases h.batch_cases with ⟨-, -, hroot⟩ | ⟨-, -, -, -, hproper, -⟩
  · rw [hroot]
    apply h.proper t.present t.present_mem
  · exact hproper

/-- No more steps can be taken back than are kept. -/
theorem length_undoable_le (h : StandsFor limit s t) {history : History}
    (hhistory : history = { s.history with batch := none }) :
  history.undoable.length ≤ history.maxDepth
  := by
  have hlt := t.cursor_lt
  have hbounded := h.bounded
  rw [hhistory, h.cursor, h.maxDepth]
  omega

/-- A move of the cursor and a change of the batch leave the steps and the moments alone. -/
theorem update (h : StandsFor limit s t) {history : History} {e : Engine} {t' : Timeline}
    (hsteps : history.steps = s.history.steps) (hmoments : t'.moments = t.moments)
    (hmaxDepth : history.maxDepth = s.history.maxDepth)
    (hcursor : history.undoable.length = t'.cursor)
    (hbatch : BatchAgrees t'.present.tree e.root history.batch t'.batch) :
  StandsFor limit ⟨history, e⟩ t'
  where
  joined := by
    rw [hsteps, hmoments]
    exact h.joined
  cursor := hcursor
  maxDepth := hmaxDepth.trans h.maxDepth
  bounded := by
    rw [hmoments]
    exact h.bounded
  proper := by
    rw [hmoments]
    exact h.proper
  batch := hbatch

/-- The batches on both sides can be replaced by others that agree. -/
theorem withBatch (h : StandsFor limit s t) {e : Engine} {b : Option Batch}
    {b' : Option (Nat × Style)} (hbatch : BatchAgrees t.present.tree e.root b b') :
  StandsFor limit ⟨{ s.history with batch := b }, e⟩ { t with batch := b' }
  := h.update rfl rfl rfl h.cursor hbatch

/-- While no batch is open, the cursor can be moved to a moment between other steps. -/
theorem moved (h : StandsFor limit s t) (hclosed : t.openBatches = 0) {t' : Timeline}
    {undoable redoable : List Step} {moment : Moment}
    (hsteps : undoable.reverse ++ redoable = s.history.steps) (hmoments : t'.moments = t.moments)
    (hcursor : undoable.length = t'.cursor) (hbatch : t'.batch = t.batch)
    (hpresent : t'.present = moment) :
  StandsFor limit ⟨{ s.history with undoable, redoable }, s.engine.withRoot moment.tree⟩ t'
  := by
  obtain ⟨hnone, hnone', -⟩ := h.closed hclosed
  refine h.update hsteps hmoments rfl hcursor ?_
  dsimp only
  rw [hnone, hbatch, hnone', hpresent]
  apply BatchAgrees.closed rfl

/-- A new step that leads from the present tree to another one is recorded on both sides. -/
theorem push (h : StandsFor limit s t) {change : Change} {tree : Style}
    (joins : change.Joins t.present.tree tree) (htree : tree.Proper) {e : Engine}
    (he : e.root = tree) (description : String) {history : History}
    (hhistory : history = { s.history with batch := none }) :
  StandsFor limit ⟨history.push ⟨change, description⟩, e⟩ (t.record limit ⟨tree, description⟩)
  where
  joined := by
    have hsteps := h.joined.take t.cursor
    rw [← h.cursor, History.take_steps, h.cursor] at hsteps
    have hlast : (t.moments.take (t.cursor + 1)).getLast? = some t.present := by
      rw [List.getLast?_eq_getElem?, List.length_take_of_le t.cursor_lt, Nat.succ_sub_one,
        List.getElem?_take_of_lt (Nat.lt_succ_self t.cursor), t.getElem?_cursor]
    rw [History.steps_push (h.length_undoable_le hhistory), hhistory, h.cursor, h.maxDepth]
    apply (hsteps.concat hlast joins rfl).drop
    rw [List.length_append, List.length_reverse, h.cursor]
    apply Nat.sub_le
  cursor := by
    rw [History.undoable_push (h.length_undoable_le hhistory), List.length_take, List.length_cons,
      hhistory, h.cursor, h.maxDepth, Nat.min_comm]
    rfl
  maxDepth := by
    rw [hhistory]
    exact h.maxDepth
  bounded := by
    rw [Timeline.record, List.length_drop, List.length_append, List.length_take_of_le t.cursor_lt,
      List.length_singleton]
    omega
  proper moment hmoment := by
    rcases List.mem_append.mp (List.mem_of_mem_drop hmoment) with hmem | hmem
    · apply h.proper moment (List.mem_of_mem_take hmem)
    · obtain rfl := List.mem_singleton.mp hmem
      exact htree
  batch := by
    rw [Timeline.present_record, hhistory]
    apply BatchAgrees.closed he

/-! ### Commands -/

/-- An executed mutation has the same outcome on both sides, and the session stands for
the timeline afterwards. -/
theorem execute (h : StandsFor limit s t) {m : Mutation} (hm : m.edit.Carries Style.Proper)
    (description : String) :
  (s.step (.execute m description)).1 = (t.step limit (.execute m description)).1
    ∧ StandsFor limit (s.step (.execute m description)).2 (t.step limit (.execute m description)).2
  := by
  rw [Timeline.step, ← h.root_eq, Session.step]
  cases happly : m.apply s.engine.root with
  | error error =>
    rw [History.perform_of_error happly]
    exact ⟨rfl, h⟩
  | ok tree =>
    have htree := Mutation.proper_apply h.proper_root hm happly
    rcases h.batch_cases with ⟨hbatch, hbatch', hroot⟩ | ⟨inner, changed, hbatch, hbatch', -, -⟩
    · obtain ⟨change, joins, hperform⟩ := History.perform_of_closed h.proper_root hbatch happly
      rw [hperform]
      use rfl
      dsimp only
      rw [Timeline.change_of_closed hbatch']
      rw [hroot] at joins
      apply h.push joins htree rfl description
      rw [← hbatch]
    · rw [History.perform_of_open hbatch happly]
      use rfl
      dsimp only
      rw [Timeline.change_of_open hbatch']
      apply h.withBatch
      apply BatchAgrees.opened htree
      intro hfalse
      cases hfalse

/-- An undo outside batches has the same outcome on both sides, and the session stands for
the timeline afterwards. -/
theorem undo (h : StandsFor limit s t) (hclosed : t.openBatches = 0) :
  (s.step .undo).1 = (t.step limit .undo).1
    ∧ StandsFor limit (s.step .undo).2 (t.step limit .undo).2
  := by
  obtain ⟨-, -, hroot⟩ := h.closed hclosed
  have hcursor := h.cursor
  rw [Timeline.step, Session.step]
  cases hundoable : s.history.undoable with
  | nil =>
    rw [hundoable] at hcursor
    rw [History.undo_nil hundoable, Timeline.undo_of_zero hcursor.symm]
    exact ⟨rfl, h⟩
  | cons step rest =>
    rw [hundoable] at hcursor
    have hstep : s.history.steps[rest.length]? = some step := by
      rw [History.steps, hundoable, List.reverse_cons, List.append_assoc,
        List.getElem?_append_right (Nat.le_of_eq List.length_reverse), List.length_reverse,
        Nat.sub_self]
      rfl
    obtain ⟨first, second, hfirst, hsecond, joins, hdescription⟩ :=
      h.joined.exists_of_getElem? hstep
    obtain ⟨t', hundo, hmoments, hcursor', hbatch, hpresent⟩ :=
      Timeline.undo_of_succ hcursor.symm hfirst
    obtain rfl : t.present = second := by
      apply Timeline.present_eq_iff.mpr
      rw [← hcursor]
      exact hsecond
    rw [History.undo_cons hundoable (joins.undo _ hroot), hundo, hdescription]
    use rfl
    apply h.moved hclosed _ hmoments hcursor'.symm hbatch hpresent
    rw [History.steps, hundoable, List.reverse_cons, List.append_assoc]
    rfl

/-- A redo outside batches has the same outcome on both sides, and the session stands for
the timeline afterwards. -/
theorem redo (h : StandsFor limit s t) (hclosed : t.openBatches = 0) :
  (s.step .redo).1 = (t.step limit .redo).1
    ∧ StandsFor limit (s.step .redo).2 (t.step limit .redo).2
  := by
  obtain ⟨-, -, hroot⟩ := h.closed hclosed
  rw [Timeline.step, Session.step]
  cases hredoable : s.history.redoable with
  | nil =>
    have hnone : t.moments[t.cursor + 1]? = none := by
      apply List.getElem?_eq_none
      apply Nat.le_of_eq
      rw [h.joined.length_eq, History.steps, hredoable, List.append_nil, List.length_reverse,
        h.cursor]
    rw [History.redo_nil hredoable, Timeline.redo_of_none hnone]
    exact ⟨rfl, h⟩
  | cons step rest =>
    have hstep : s.history.steps[t.cursor]? = some step := by
      rw [← h.cursor, ← List.length_reverse, History.steps, hredoable,
        List.getElem?_append_right (Nat.le_refl _), Nat.sub_self]
      rfl
    obtain ⟨first, second, hfirst, hsecond, joins, hdescription⟩ :=
      h.joined.exists_of_getElem? hstep
    obtain ⟨t', hredo, hmoments, hcursor', hbatch, hpresent⟩ := Timeline.redo_of_some hsecond
    obtain rfl : t.present = first := Timeline.present_eq_iff.mpr hfirst
    rw [History.redo_cons hredoable (joins.redo _ hroot), hredo, hdescription]
    use rfl
    apply h.moved hclosed _ hmoments _ hbatch hpresent
    · rw [History.steps, hredoable, List.reverse_cons, List.append_assoc]
      rfl
    · rw [hcursor', ← h.cursor]
      rfl

/-- Opening a batch on both sides keeps the session standing for the timeline. -/
theorem openBatch (h : StandsFor limit s t) :
  StandsFor limit ⟨s.history.openBatch s.engine, s.engine⟩ t.openBatch
  := by
  rw [History.openBatch, Timeline.openBatch]
  rcases h.batch_cases with ⟨hbatch, hbatch', hroot⟩
    | ⟨inner, changed, hbatch, hbatch', hproper, hunchanged⟩
  · rw [hbatch, hbatch', ← h.root_eq]
    apply h.withBatch
    rw [hroot]
    apply BatchAgrees.opened (h.proper t.present t.present_mem)
    intro _
    rfl
  · rw [hbatch, hbatch']
    apply h.withBatch
    apply BatchAgrees.opened hproper hunchanged

/-- Closing a batch on both sides keeps the session standing for the timeline. -/
theorem closeBatch (h : StandsFor limit s t) (description : String) :
  StandsFor limit ⟨s.history.closeBatch s.engine description, s.engine⟩
    (t.closeBatch limit description)
  := by
  rw [History.closeBatch.eq_def, Timeline.closeBatch.eq_def]
  rcases h.batch_cases with ⟨hbatch, hbatch', -⟩
    | ⟨inner, changed, hbatch, hbatch', hproper, hunchanged⟩
  · rw [hbatch, hbatch']
    exact h
  · rw [hbatch, hbatch']
    cases inner with
    | succ inner =>
      apply h.withBatch
      apply BatchAgrees.opened hproper hunchanged
    | zero =>
      dsimp only
      by_cases hsame : s.engine.root = t.present.tree
      · rw [if_pos hsame, if_neg (fun hchanged => hchanged.2 hsame.symm)]
        apply h.withBatch
        apply BatchAgrees.closed hsame
      · have hchanged : changed = true := Bool.of_not_eq_false (mt hunchanged hsame)
        rw [if_neg hsame, if_pos ⟨hchanged, Ne.symm hsame⟩]
        apply h.push (Change.joins_trees _ _) hproper rfl description rfl

/-- A command that is allowed has the same outcome in a session and on its timeline, and
the session stands for the timeline afterwards. -/
theorem step (h : StandsFor limit s t) {c : Command} (hcarries : c.Carries Style.Proper)
    (hallowed : c.Allowed t.openBatches) :
  (s.step c).1 = (t.step limit c).1 ∧ StandsFor limit (s.step c).2 (t.step limit c).2
  := by
  cases c with
  | execute m description => apply h.execute hcarries
  | undo => apply h.undo hallowed
  | redo => apply h.redo hallowed
  | openBatch => exact ⟨rfl, h.openBatch⟩
  | closeBatch description => exact ⟨rfl, h.closeBatch description⟩

/-- The same for a list of commands, by induction on the list. -/
theorem run (h : StandsFor limit s t) {commands : List Command}
    (hcarries : ∀ c ∈ commands, c.Carries Style.Proper)
    (horderly : Command.Orderly t.openBatches commands) :
  (Command.run Session.step s commands).1 = (Command.run (Timeline.step limit) t commands).1
    ∧ StandsFor limit (Command.run Session.step s commands).2
        (Command.run (Timeline.step limit) t commands).2
  := by
  induction commands generalizing s t with
  | nil => exact ⟨rfl, h⟩
  | cons c cs ih =>
    rw [List.forall_mem_cons] at hcarries
    obtain ⟨hallowed, horderly⟩ := horderly
    obtain ⟨houtcome, hnext⟩ := h.step hcarries.1 hallowed
    rw [← Timeline.openBatches_step limit] at horderly
    obtain ⟨houtcomes, hlast⟩ := ih hnext hcarries.2 horderly
    exact ⟨congrArg₂ List.cons houtcome houtcomes, hlast⟩

end StandsFor

/-! ### The refinement -/

/-- What can be seen of a timeline in a session: the tree that is shown, the number of
steps before and after the cursor and the number of open batches; and no more than `limit`
steps are kept. -/
structure Session.Shows (limit : Nat) (s : Session) (t : Timeline) : Prop where
  root : s.engine.root = t.tree
  undoable : s.history.undoable.length = t.cursor
  redoable : t.cursor + s.history.redoable.length + 1 = t.moments.length
  bounded : t.moments.length ≤ limit + 1
  batch : s.history.batch.map Batch.inner = t.batch.map Prod.fst

/-- A session that stands for a timeline shows what that timeline shows. -/
theorem StandsFor.shows {limit : Nat} {s : Session} {t : Timeline} (h : StandsFor limit s t) :
  s.Shows limit t
  where
  root := h.root_eq
  undoable := h.cursor
  redoable := by
    rw [h.joined.length_eq, History.steps, List.length_append, List.length_reverse, h.cursor]
  bounded := h.bounded
  batch := by
    rcases h.batch_cases with ⟨hbatch, hbatch', -⟩ | ⟨inner, changed, hbatch, hbatch', -⟩
    · rw [hbatch, hbatch']
      rfl
    · rw [hbatch, hbatch']
      rfl

/-- An orderly session on a proper tree runs like the timeline of that tree: every command
has the same outcome, and the session shows what the timeline does. -/
theorem Session.refines_timeline (limit : Nat) (e : Engine) (commands : List Command)
    (he : e.root.Proper) (hcarries : ∀ c ∈ commands, c.Carries Style.Proper)
    (horderly : Command.Orderly 0 commands) :
  (Command.run Session.step (Session.start limit e) commands).1
      = (Command.run (Timeline.step limit) (Timeline.start e.root) commands).1
    ∧ (Command.run Session.step (Session.start limit e) commands).2.Shows limit
        (Command.run (Timeline.step limit) (Timeline.start e.root) commands).2
  := by
  obtain ⟨houtcomes, hlast⟩ := (StandsFor.start limit he).run hcarries horderly
  exact ⟨houtcomes, hlast.shows⟩

/-- A gradient without a colour in it yet. -/
def emptyGradient : Style :=
  .ofParams "Gradient" "Gradient" .color [(Builtin.takes "Color" [.color] none).asVariadic]

/-- Commands with a step that is taken back and forward again, a batch inside a batch, a
refusal and a step that ends what could be done again. -/
def gradientCommands : List Command :=
  [ .execute ⟨[], .addParam 1 (.style (Builtin.bare "Red" .color))⟩ "add red",
    .undo,
    .undo,
    .redo,
    .openBatch,
    .execute ⟨[], .removeParam 0⟩ "remove",
    .openBatch,
    .execute ⟨[0], .setComment "warm"⟩ "comment",
    .closeBatch "inner",
    .closeBatch "tidy up",
    .execute ⟨[], .detachStyle 1⟩ "detach",
    .undo,
    .execute ⟨[], .setComment "sky"⟩ "name",
    .redo ]

theorem Session.refines_timeline_emptyGradient :
  emptyGradient.Proper ∧ (∀ c ∈ gradientCommands, c.Carries Style.Proper)
    ∧ Command.Orderly 0 gradientCommands
    ∧ (Command.run step (start 2 (Engine.ofStyle emptyGradient)) gradientCommands).1
      = [ .done, .moved (some "add red"), .moved none, .moved (some "add red"), .done, .done, .done,
          .done, .done, .done, .refused (.param [] "Gradient" (.indexOutOfRange "Gradient" 1 1)),
          .moved (some "tidy up"), .done, .moved none ]
    ∧ (Command.run step (start 2 (Engine.ofStyle emptyGradient)) gradientCommands).2.Shows 2
        (Command.run (Timeline.step 2) (Timeline.start emptyGradient) gradientCommands).2
  := by
  have hred : (Builtin.bare "Red" .color).Proper := Style.Proper.of_params_eq_nil rfl rfl
  have hproper : emptyGradient.Proper := by
    apply Style.Everywhere.node
    · use Style.tailed_of_declared rfl (List.forall_mem_nil _)
      intro p hp
      obtain rfl := List.mem_singleton.mp hp
      trivial
    · intro p hp c hc
      obtain rfl := List.mem_singleton.mp hp
      cases hc
  have hcarries : ∀ c ∈ gradientCommands, c.Carries Style.Proper := by
    simp [gradientCommands, Command.Carries, Edit.Carries, hred]
  have horderly : Command.Orderly 0 gradientCommands := by
    simp [gradientCommands, Command.Orderly, Command.Allowed, Command.openAfter]
  obtain ⟨houtcomes, hshows⟩ :=
    Session.refines_timeline 2 (Engine.ofStyle emptyGradient) gradientCommands hproper hcarries
      horderly
  refine ⟨hproper, hcarries, horderly, ?_, hshows⟩
  rw [houtcomes]
  decide +kernel

end BladeStyle
