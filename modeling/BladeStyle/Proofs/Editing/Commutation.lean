import BladeStyle.Proofs.Editing.Sync
import BladeStyle.Proofs.Style.Path

/-!
# Mutations of unrelated nodes

What a mutation comes to is decided by the node at its path, and all that an accepted one does is
to put another node there.  Hence mutations at two paths of which neither leads to the other do
not notice each other: in either order each has the answer that it has alone, and the engine ends
up the same, whatever the mutations insert, remove or replace below their nodes.
-/

namespace BladeStyle

namespace Mutation

/-- What a mutation makes of the node at its path, if there is one. -/
def outcome (m : Mutation) : Option Style → Except EditError Style
  | none => .error (.noNode m.path)
  | some node => (m.edit.apply node).mapError (.param m.path node.name)

theorem apply_eq_map_outcome (m : Mutation) (root : Style) :
  m.apply root = (m.outcome (root.at? m.path)).map (root.replaceAt m.path)
  := by
  rw [apply]
  cases root.at? m.path with
  | none => rfl
  | some node =>
    simp only [outcome]
    cases m.edit.apply node <;> rfl

end Mutation

namespace Engine

/-- An engine with another node at a path of its tree, or with the refusal of one. -/
def place (e : Engine) (path : Path) : Except EditError Style → Reply × Engine
  | .error error => (.refused error, e)
  | .ok t => (.done, e.withRoot (e.root.replaceAt path t))

theorem answer_apply (e : Engine) (m : Mutation) :
  e.answer (.apply m) = e.place m.path (m.outcome (e.root.at? m.path))
  := by
  rw [answer, mutate_eq, Mutation.apply_eq_map_outcome]
  cases m.outcome (e.root.at? m.path) <;> rfl

variable {e : Engine} {p q : Path}

/-- Placing a node leaves the nodes at other paths as they are. -/
theorem at?_place (hpq : ¬ p <+: q) (hqp : ¬ q <+: p) (x : Except EditError Style) :
  (e.place p x).2.root.at? q = e.root.at? q
  := by
  cases x with
  | error error => rfl
  | ok t => apply Style.at?_replaceAt_of_not_isPrefix e.root t hpq hqp

/-- The reply tells whether there was a node to place, wherever that is. -/
theorem reply_place (e e' : Engine) (p : Path) (x : Except EditError Style) :
  (e.place p x).1 = (e'.place p x).1
  := by
  cases x <;> rfl

theorem place_comm (hpq : ¬ p <+: q) (hqp : ¬ q <+: p) (x y : Except EditError Style) :
  ((e.place p x).2.place q y).2 = ((e.place q y).2.place p x).2
  := by
  cases x with
  | error error => rfl
  | ok t =>
    cases y with
    | error error => rfl
    | ok u => exact congrArg e.withRoot (Style.replaceAt_comm e.root t u hpq hqp)

/-- A mutation has the same answer before and after another one at an unrelated path. -/
theorem answer_after_place (m : Mutation) (hp : ¬ p <+: m.path) (hm : ¬ m.path <+: p)
    (x : Except EditError Style) :
  (e.place p x).2.answer (.apply m)
    = (e.place p x).2.place m.path (m.outcome (e.root.at? m.path))
  := by
  rw [answer_apply, at?_place hp hm]

/-- Mutations at unrelated paths commute.  Each is accepted or refused, and with the same error,
whether it comes first or second, and the engine after both is the same in either order. -/
theorem unrelated_mutations_commute (e : Engine) {m n : Mutation} (hmn : ¬ m.path <+: n.path)
    (hnm : ¬ n.path <+: m.path) :
  ((e.answer (.apply n)).2.answer (.apply m)).1 = (e.answer (.apply m)).1
    ∧ ((e.answer (.apply m)).2.answer (.apply n)).1 = (e.answer (.apply n)).1
    ∧ e.after [.apply m, .apply n] = e.after [.apply n, .apply m]
  := by
  simp only [after, answer_apply e, answer_after_place m hnm hmn, answer_after_place n hmn hnm]
  refine ⟨?_, ?_, ?_⟩
  · apply reply_place
  · apply reply_place
  · apply place_comm hmn hnm

/-- A colour is removed from a gradient and a layer beside it loses its own. -/
theorem unrelated_mutations_commute_gradient :
  ∃ e : Engine, ofText? "Layers<Gradient<Red, Blue>, BlastL<White>>" = .ok e
    ∧ ¬ [0] <+: [1] ∧ ¬ [1] <+: [0]
    ∧ (e.answer (.apply ⟨[0], .removeParam 0⟩)).1 = .done
    ∧ ((e.answer (.apply ⟨[1], .detachStyle 0⟩)).2.answer (.apply ⟨[0], .removeParam 0⟩)).1 = .done
    ∧ e.after [.apply ⟨[0], .removeParam 0⟩, .apply ⟨[1], .detachStyle 0⟩]
      = e.after [.apply ⟨[1], .detachStyle 0⟩, .apply ⟨[0], .removeParam 0⟩]
    ∧ ((e.answer (.apply ⟨[0], .removeParam 0⟩)).2.answer (.apply ⟨[1, 0, 2], .setBool 0 true⟩)).1
      = .refused (.noNode [1, 0, 2])
  := by
  have hrun : (ofText? "Layers<Gradient<Red, Blue>, BlastL<White>>").toOption.map (fun e =>
        ((e.answer (.apply ⟨[0], .removeParam 0⟩)).1,
          (e.answer (.apply ⟨[1, 0, 2], .setBool 0 true⟩)).1))
      = some (.done, .refused (.noNode [1, 0, 2])) := by
    decide +kernel
  obtain ⟨e, he, hanswers⟩ := exists_of_map_toOption_eq_some hrun
  obtain ⟨hdone, hrefused⟩ := Prod.mk.inj hanswers
  have h₀₁ : ¬ [0] <+: [1] := by decide
  have h₁₀ : ¬ [1] <+: [0] := by decide
  obtain ⟨hfirst, -, hsame⟩ := unrelated_mutations_commute e
    (m := ⟨[0], .removeParam 0⟩) (n := ⟨[1], .detachStyle 0⟩) h₀₁ h₁₀
  obtain ⟨-, hsecond, -⟩ := unrelated_mutations_commute e
    (m := ⟨[0], .removeParam 0⟩) (n := ⟨[1, 0, 2], .setBool 0 true⟩) (by decide) (by decide)
  exact ⟨e, he, h₀₁, h₁₀, hdone, hfirst.trans hdone, hsame, hsecond.trans hrefused⟩

end Engine

end BladeStyle
