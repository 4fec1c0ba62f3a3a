import BladeStyle.Proofs.Acceptance
import BladeStyle.Proofs.Editing.Session

/-!
# The text of an engine and its tree

An engine keeps a tree and a text side by side.  Unless it is marked as stale, the stored text
is the one written from the tree or one that is parsed to the tree, and there is none only if
the tree cannot be written.  Every call keeps this, refused or not, so the text that is read
is never one of an earlier tree.
-/

namespace BladeStyle

/-! ### Calls -/

/-- What is asked of an engine. -/
inductive Call where
  | apply (m : Mutation)
  | enterText (text : String)
  | replaceRoot (root : Style)
  | flush
  | readText

/-- What an engine answers. -/
inductive Reply where
  | done
  | refused (error : EditError)
  | text (text : Option String)
  deriving DecidableEq

/-- The style that a call carries, if it carries one, satisfies `P`. -/
def Call.Carries (P : Style → Prop) : Call → Prop
  | apply m => m.edit.Carries P
  | replaceRoot root => P root
  | enterText _ | flush | readText => True

namespace Engine

/-- The reply to a change in place, and the engine that it leaves behind. -/
def afterChange : Except EditError Unit × Engine → Reply × Engine
  | (.ok (), next) => (.done, next)
  | (.error error, next) => (.refused error, next)

/-- The reply to a call and the engine after it. -/
def answer (e : Engine) : Call → Reply × Engine
  | .apply m => afterChange (e.mutate m)
  | .enterText text => afterChange (e.setText text)
  | .replaceRoot root => (.done, e.withRoot root)
  | .flush => (.done, e.flush)
  | .readText => (.text e.text?, e.flush)

/-- The engine after a list of calls. -/
def after (e : Engine) : List Call → Engine
  | [] => e
  | call :: calls => (e.answer call).2.after calls

/-- An engine that was made of a text or of a tree and then called in any way. -/
def Reached (e : Engine) : Prop :=
  ∃ start calls, ((∃ text, ofText? text = .ok start) ∨ ∃ root, start = ofStyle root)
    ∧ e = start.after calls

variable {e : Engine}

/-- What every call keeps, all of them keep together. -/
theorem after_of_answer {P : Engine → Prop} {Q : Call → Prop}
    (step : ∀ e call, P e → Q call → P (e.answer call).2) {calls : List Call}
    (hcalls : ∀ call ∈ calls, Q call) (he : P e) :
  P (e.after calls)
  := by
  induction calls generalizing e with
  | nil => exact he
  | cons call calls ih =>
    obtain ⟨hcall, hcalls⟩ := List.forall_mem_cons.mp hcalls
    apply ih hcalls (step e call he hcall)

/-- Answering with the outcome of a change leaves the engine as the change did. -/
theorem afterChange_snd (change : Except EditError Unit × Engine) :
  (afterChange change).2 = change.2
  := by
  obtain ⟨error | _, next⟩ := change <;> rfl

/-- The reply is a refusal only if the change was refused, and with its error. -/
theorem eq_error_of_afterChange_fst {change : Except EditError Unit × Engine} {error : EditError}
    (h : (afterChange change).1 = .refused error) :
  change = (.error error, change.2)
  := by
  obtain ⟨error' | _, next⟩ := change
  · rw [Reply.refused.inj h]
  · cases h

/-- A call that is refused changes nothing. -/
theorem eq_of_answer_eq_refused {call : Call} {error : EditError}
    (h : (e.answer call).1 = .refused error) :
  (e.answer call).2 = e
  := by
  cases call with
  | apply m =>
    rw [answer, afterChange_snd]
    exact (mutate_eq_error_iff.mp (eq_error_of_afterChange_fst h)).2
  | enterText text =>
    rw [answer, afterChange_snd]
    apply eq_of_setText_eq_error (eq_error_of_afterChange_fst h)
  | replaceRoot | flush | readText => cases h

/-- An engine opens with what its text is parsed as, and with the text written anew. -/
theorem ofText?_eq_ok {text : String} :
  ofText? text = .ok e
    ↔ ∃ root written, Style.parse text = .ok root ∧ root.text .multiline = .ok written
        ∧ e = ⟨root, some written, false⟩
  := by
  rw [ofText?]
  cases Style.parse text with
  | error error => simp
  | ok root =>
    cases h : root.text .multiline with
    | error error => simp [h]
    | ok written => simp [h, eq_comm]

/-! ### Texts of a tree -/

/-- A text of a tree: the one that is written, or one that is parsed to it; there is none only
if the tree cannot be written. -/
def Describes (root : Style) : Option String → Prop
  | none => ∃ error, root.text .multiline = .error error
  | some text => root.text .multiline = .ok text ∨ Style.parse text = .ok root

/-- The stored text is one of the tree unless it is marked as stale. -/
def InSync (e : Engine) : Prop := e.dirty = false → Describes e.root e.stored

/-- The written text describes the tree it was written of, as does its absence. -/
theorem describes_written (root : Style) :
  Describes root (root.text .multiline).toOption
  := by
  cases h : root.text .multiline with
  | error error => exact ⟨error, h⟩
  | ok text => exact Or.inl h

/-- An engine with a new tree is in sync, as its text has yet to be written. -/
theorem inSync_withRoot (root : Style) :
  (e.withRoot root).InSync
  := by
  intro hclean
  cases hclean

/-- Writing the text that is due keeps an engine in sync. -/
theorem InSync.flush (h : e.InSync) :
  e.flush.InSync
  := by
  rw [Engine.flush]
  split
  · intro _
    apply describes_written
  · exact h

/-- Every call keeps the text and the tree in step. -/
theorem InSync.answer (h : e.InSync) (call : Call) :
  (e.answer call).2.InSync
  := by
  cases call with
  | apply m =>
    rw [Engine.answer, afterChange_snd]
    apply holds_mutate h
    intro tree _
    apply inSync_withRoot
  | enterText text =>
    rw [Engine.answer, afterChange_snd]
    apply holds_setText h
    intro root hroot _
    exact Or.inr hroot
  | replaceRoot root => apply inSync_withRoot
  | flush | readText => apply h.flush

/-- Every engine that can be reached is in sync. -/
theorem Reached.inSync (h : e.Reached) :
  e.InSync
  := by
  obtain ⟨start, calls, hstart, rfl⟩ := h
  apply after_of_answer (Q := fun _ => True) fun e call he _ => he.answer call
  · exact fun _ _ => trivial
  · rcases hstart with ⟨text, hstart⟩ | ⟨root, rfl⟩
    · obtain ⟨root, written, -, hwritten, rfl⟩ := ofText?_eq_ok.mp hstart
      intro _
      exact Or.inl hwritten
    · intro hclean
      cases hclean

/-- Writing the text does not change the tree. -/
theorem root_flush (e : Engine) :
  e.flush.root = e.root
  := by
  rw [flush]
  split <;> rfl

/-- After the text has been written none is due. -/
theorem dirty_flush (e : Engine) :
  e.flush.dirty = false
  := by
  rw [flush]
  split
  · rfl
  · next hclean => exact eq_false_of_ne_true hclean

/-- The text that is read is one of the tree. -/
theorem InSync.describes_text? (h : e.InSync) :
  Describes e.root e.text?
  := by
  have hflush := h.flush (dirty_flush e)
  rw [root_flush] at hflush
  exact hflush

/-- There is no text exactly if the tree cannot be written. -/
theorem Describes.eq_none_iff {root : Style} {text : Option String} (h : Describes root text) :
  text = none ↔ ∃ error, root.text .multiline = .error error
  := by
  constructor
  · rintro rfl
    exact h
  · rintro ⟨error, herror⟩
    cases text with
    | none => rfl
    | some text =>
      rcases h with hwritten | hparsed
      · rw [herror] at hwritten
        cases hwritten
      · obtain ⟨written, hwritten, -⟩ := Registry.exists_text Registry.regular_builtin
          (Style.wellFormed_of_parse hparsed) .multiline
        rw [herror] at hwritten
        cases hwritten

/-- The text and the tree of an engine stay in step, whatever it is asked.  What is stored
without being stale is a text of the tree, and so is what is read; nothing is read exactly if
the tree cannot be written; writing and reading the text leave the tree alone; and a call that
is refused changes nothing. -/
theorem stays_in_sync (h : e.Reached) :
  e.InSync
    ∧ (e.answer .readText).1 = .text e.text?
    ∧ (e.text? = none ↔ ∃ error, e.root.text .multiline = .error error)
    ∧ (∀ text, e.text? = some text →
      e.root.text .multiline = .ok text ∨ Style.parse text = .ok e.root)
    ∧ (e.answer .flush).2.root = e.root ∧ (e.answer .readText).2.root = e.root
    ∧ ∀ call error, (e.answer call).1 = .refused error → (e.answer call).2 = e
  := by
  have hdescribes := h.inSync.describes_text?
  refine ⟨h.inSync, rfl, hdescribes.eq_none_iff, ?_, root_flush e, root_flush e,
    fun call error => eq_of_answer_eq_refused⟩
  intro text htext
  rw [htext] at hdescribes
  exact hdescribes

/-- Calls with a refused mutation, an empty slot while the text is read, a refused text and a
text that is kept as it was typed. -/
def gradientCalls : List Call :=
  [ .apply ⟨[3], .setComment "nowhere"⟩,
    .apply ⟨[], .detachStyle 0⟩,
    .readText,
    .enterText "Gradient<Red",
    .enterText "Gradient<Blue, Red> // cold",
    .flush ]

theorem stays_in_sync_gradient :
  ∃ e : Engine, e.Reached ∧ e.text? = some "Gradient<Blue, Red> // cold"
    ∧ (e.root.text .multiline = .ok "Gradient<Blue, Red> // cold"
      ∨ Style.parse "Gradient<Blue, Red> // cold" = .ok e.root)
    ∧ (e.answer (.enterText "Gradient<")).1
      = .refused (.parse (.malformed (.mismatchedBrackets "Gradient")))
    ∧ (e.answer (.enterText "Gradient<")).2 = e
  := by
  have hrun : (ofText? "Gradient<Red>").toOption.map (fun start =>
        ((start.after gradientCalls).text?,
          ((start.after gradientCalls).answer (.enterText "Gradient<")).1))
      = some (some "Gradient<Blue, Red> // cold",
          .refused (.parse (.malformed (.mismatchedBrackets "Gradient")))) := by
    decide +kernel
  obtain ⟨start, hstart, hanswers⟩ := exists_of_map_toOption_eq_some hrun
  obtain ⟨htext, hrefused⟩ := Prod.mk.inj hanswers
  have hreached : (start.after gradientCalls).Reached :=
    ⟨start, gradientCalls, Or.inl ⟨_, hstart⟩, rfl⟩
  obtain ⟨-, -, -, hread, -, -, hunchanged⟩ := stays_in_sync hreached
  exact ⟨_, hreached, htext, hread _ htext, hrefused, hunchanged _ _ hrefused⟩

end Engine

end BladeStyle
