import BladeStyle.Editing.Clipboard
import BladeStyle.Proofs.Editing.Commutation
import BladeStyle.Proofs.Editing.ReadBack
import BladeStyle.Proofs.Style.Completeness

/-!
# Copies and duplicates

A copy is a text that is parsed when it is pasted, a duplicate is the subtree itself.  In an
editable tree the two ways lead to the same style up to the form of its comments: a subtree is
copied unless one of its slots is empty, and its text reads back unless it has too many levels.
A slot takes a style or refuses it for its category, which has nothing to do with comments, so an
engine answers to both in the same way.
-/

namespace BladeStyle

namespace Style

variable {r : Registry} {s : Style}

theorem Editable.bare (hr : r.Regular) (h : s.Editable r) :
  s.Everywhere Bare
  := by
  apply h.imp
  intro n hn hbuiltin
  obtain ⟨template, ht, hshape⟩ := hn.shape
  obtain ⟨e, he, rfl, -⟩ := Registry.mem_of_template? ht
  apply hshape.params_eq_nil (hr e he) (Or.inr hbuiltin)

/-- Only an empty slot keeps an editable tree from being written. -/
theorem Editable.exists_text_eq_error_iff (hr : r.Regular) (h : s.Editable r) {layout : Layout} :
  (∃ error, s.text layout = .error error) ↔ ∃ slot empty, s.EmptyAt slot empty
  := by
  have htext : (∃ text, s.text layout = .ok text) ↔ s.Everywhere Filled :=
    exists_text_iff (h.bare hr)
  rw [← not_iff_not]
  push Not
  rw [← everywhere_filled_iff, ← htext]
  cases s.text layout <;> simp

end Style

/-- Whether a slot is filled depends on the category of the style alone. -/
theorem Engine.reply_setStyle (e : Engine) (target : Path) (index : Nat) {s t : Style}
    (h : s.category = t.category) :
  (e.answer (.apply ⟨target, .setStyle index s⟩)).1
    = (e.answer (.apply ⟨target, .setStyle index t⟩)).1
  := by
  rw [answer_apply, answer_apply]
  cases e.root.at? target with
  | none => rfl
  | some node =>
    simp only [Mutation.outcome, Edit.apply, Style.updateParam]
    cases node.params[index]? with
    | none => rfl
    | some p =>
      simp only [Param.fill, h]
      split
      · rfl
      · split <;> rfl

namespace Clipboard

variable {e : Engine} {source : Path}

theorem take_eq_ok {c next : Clipboard} :
  c.take e source = (.ok (), next)
    ↔ ∃ node text, e.node? source = some node ∧ node.text .multiline = .ok text
        ∧ next = ⟨some text⟩
  := by
  rw [take]
  cases e.node? source with
  | none => simp
  | some node =>
    cases h : node.text .multiline with
    | error error => simp [h]
    | ok text => simp [h, eq_comm]

/-- A subtree is copied unless there is none or it cannot be written. -/
theorem exists_take_eq_error_iff (c : Clipboard) :
  (∃ error, (c.take e source).1 = .error error)
    ↔ e.node? source = none
      ∨ ∃ node, e.node? source = some node ∧ ∃ error, node.text .multiline = .error error
  := by
  rw [take]
  cases e.node? source with
  | none => simp
  | some node =>
    cases h : node.text .multiline with
    | error error => simp [h]
    | ok text => simp [h]

/-- Pasting a copy agrees with duplicating the subtree.  In an editable tree a copy fails exactly if
there is no node at the path or one of the slots of its subtree is empty, and then leaves the
clipboard as it is.  What is pasted after a copy that succeeds is the style that a duplicate has,
with every comment normalised: closing markers are broken up, lines are trimmed and outer blank
lines dropped.  Both are accepted by every engine or refused with the same error.  Only a subtree of
more than 64 levels cannot be pasted. -/
theorem paste_agrees_with_duplicate (he : e.root.Editable Registry.builtin) (c : Clipboard)
    (source target : Path) (index : Nat) :
  ((∃ error, (c.take e source).1 = .error error)
      ↔ e.node? source = none
        ∨ ∃ node, e.node? source = some node ∧ ∃ slot empty, node.EmptyAt slot empty)
    ∧ (∀ error next, c.take e source = (.error error, next) → next = c)
    ∧ ∀ next, c.take e source = (.ok (), next) →
      ∃ node, e.duplicate source target index = .ok ⟨target, .setStyle index node⟩
        ∧ (node.height ≤ 64 → next.paste target index
            = .ok ⟨target, .setStyle index (node.mapComments Layout.multiline.kept)⟩)
        ∧ (64 < node.height → next.paste target index = .error (.parse (.tooDeep 64)))
        ∧ ∀ other : Engine,
          (other.answer
              (.apply ⟨target, .setStyle index (node.mapComments Layout.multiline.kept)⟩)).1
            = (other.answer (.apply ⟨target, .setStyle index node⟩)).1
  := by
  have hsubtree : ∀ node, e.node? source = some node → node.Editable Registry.builtin :=
    fun node hnode => Style.Everywhere.at? he hnode
  refine ⟨?_, fun error next => eq_of_take_eq_error, ?_⟩
  · rw [exists_take_eq_error_iff]
    apply or_congr_right
    apply exists_congr
    intro node
    apply and_congr_right
    intro hnode
    apply (hsubtree node hnode).exists_text_eq_error_iff Registry.regular_builtin
  · intro next hnext
    obtain ⟨node, text, hnode, htext, rfl⟩ := take_eq_ok.mp hnext
    have hparse := (hsubtree node hnode).parse_text htext
    use node
    refine ⟨?_, ?_, ?_, ?_⟩
    · rw [Engine.duplicate, hnode]
    · intro hle
      rw [if_pos (show node.height ≤ levelLimit from hle)] at hparse
      simp only [paste, hparse]
    · intro hlt
      rw [if_neg (show ¬ node.height ≤ levelLimit from Nat.not_le.mpr hlt)] at hparse
      simp only [paste, hparse]
      rfl
    · intro other
      apply other.reply_setStyle target index (Style.category_mapComments _ node)

/-- A comment on a colour that has to be broken up and trimmed. -/
def coldBlue : Call := .apply ⟨[0, 1], .setComment " */ cold\n\n"⟩

/-- The gradient fits where a colour is. -/
theorem paste_agrees_with_duplicate_gradient :
  ∃ start node next, Engine.ofText? "Layers<Gradient<Red, Blue>, BlastL<White>>" = .ok start
    ∧ (start.after [coldBlue]).root.Editable Registry.builtin
    ∧ (start.after [coldBlue]).duplicate [0] [1] 0 = .ok ⟨[1], .setStyle 0 node⟩
    ∧ empty.take (start.after [coldBlue]) [0] = (.ok (), next)
    ∧ next.paste [1] 0 = .ok ⟨[1], .setStyle 0 (node.mapComments Layout.multiline.kept)⟩
    ∧ ((node.mapComments Layout.multiline.kept).child? 1).map (·.comment) = some "* / cold"
    ∧ ((start.after [coldBlue]).answer
        (.apply ⟨[1], .setStyle 0 (node.mapComments Layout.multiline.kept)⟩)).1 = .done
  := by
  have hrun : (Engine.ofText? "Layers<Gradient<Red, Blue>, BlastL<White>>").toOption.map
        (fun start =>
          ((empty.take (start.after [coldBlue]) [0]).1,
            ((start.after [coldBlue]).node? [0]).map fun node =>
              (decide (node.height ≤ 64),
                ((node.mapComments Layout.multiline.kept).child? 1).map (·.comment),
                ((start.after [coldBlue]).answer (.apply ⟨[1], .setStyle 0 node⟩)).1)))
      = some (.ok (), some (true, some "* / cold", .done)) := by
    decide +kernel
  obtain ⟨start, hstart, hanswers⟩ := exists_of_map_toOption_eq_some hrun
  obtain ⟨hcopied, hnode⟩ := Prod.mk.inj hanswers
  obtain ⟨node, hnode, hfacts⟩ := Option.map_eq_some_iff.mp hnode
  simp only [Prod.mk.injEq, decide_eq_true_eq] at hfacts
  obtain ⟨hheight, hcomment, hreply⟩ := hfacts
  have heditable : (start.after [coldBlue]).root.Editable Registry.builtin := by
    obtain ⟨root, -, hroot, -, rfl⟩ := Engine.ofText?_eq_ok.mp hstart
    have hcall : coldBlue.Carries Style.Readable := trivial
    apply Engine.editable_answer hcall
    exact Style.Readable.editable ⟨_, hroot⟩
  have hnext : empty.take (start.after [coldBlue]) [0]
      = (.ok (), (empty.take (start.after [coldBlue]) [0]).2) :=
    Prod.ext hcopied rfl
  obtain ⟨-, -, hsucceeds⟩ := paste_agrees_with_duplicate heditable empty [0] [1] 0
  obtain ⟨node', hduplicate, hpaste, -, hsame⟩ := hsucceeds _ hnext
  have hnode' := hduplicate
  rw [Engine.duplicate, hnode] at hnode'
  obtain ⟨-, hedit⟩ := Mutation.mk.inj (Except.ok.inj hnode')
  obtain ⟨-, rfl⟩ := Edit.setStyle.inj hedit
  exact ⟨start, node, _, hstart, heditable, hduplicate, hnext, hpaste hheight, hcomment,
    (hsame _).trans hreply⟩

end Clipboard

end BladeStyle
