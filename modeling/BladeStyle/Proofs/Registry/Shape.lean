import BladeStyle.Proofs.Registry.Templates
import BladeStyle.Proofs.Style.Binding
import BladeStyle.Proofs.Text.Tidy

/-!
# Well-formed trees

A tree is well formed for a registry if every node has the shape of the template that its
name stands for, every composite parameter holds a child that it accepts and carries no
comment of its own, and every number is one that a Number slot can hold.
-/

namespace BladeStyle

namespace Style

/-- A node that differs from a template at most in its values, its comments and the number
of repeats of the variadic tail. -/
structure HasShape (template s : Style) : Prop where
  name : s.name = template.name
  title : s.title = template.title
  category : s.category = template.category
  fixedForm : s.fixedForm = template.fixedForm
  declared : s.declared = template.declared
  repeats : s.params.length ≤ template.params.length ∨ template.isVariadic = true
  params : List.Forall₂ Param.SameSlot s.params (template.slots s.params.length)

theorem HasShape.length_le {template s : Style} (h : HasShape template s) :
  template.params.length ≤ s.params.length
  := by
  have hlength := h.params.length_eq
  cases hlast : template.params.getLast? with
  | none => simp [List.getLast?_eq_none_iff.mp hlast]
  | some tail =>
    rw [slots_eq hlast, List.length_append] at hlength
    omega

/-- A node that is written without brackets has no parameters. -/
theorem HasShape.params_eq_nil {template s : Style} (h : HasShape template s)
    (ht : template.RegularTemplate) (hbare : s.fixedForm = true ∨ s.category = .builtin) :
  s.params = []
  := by
  rw [h.fixedForm, h.category] at hbare
  have hparams := h.params
  rw [slots, ht.bare hbare] at hparams
  apply List.forall₂_nil_right_iff.mp hparams

end Style

namespace Param

/-- A parameter whose slot is finished; only a literal has a comment of its own. -/
structure Sound (p : Param Style) : Prop where
  slot : p.slot.Sound p.kind
  comment : p.isLiteral = false → p.comment = ""

end Param

namespace Style

variable {r : Registry} {s : Style}

/-- A node with the shape of its template whose parameters are finished. -/
structure WellFormedNode (r : Registry) (s : Style) : Prop where
  shape : ∃ template, r.template? s.name = some template ∧ HasShape template s
  params : ∀ p ∈ s.params, p.Sound

/-- A tree of well-formed nodes. -/
def WellFormed (r : Registry) (s : Style) : Prop := s.Everywhere (WellFormedNode r)

/-- A node whose comments are in the form in which they are read. -/
structure TidyNode (s : Style) : Prop where
  node : Text.IsTidy s.comment.toList
  params : ∀ p ∈ s.params, Text.IsTidy p.comment.toList

/-- A tree whose comments are in the form in which they are read. -/
def Tidy (s : Style) : Prop := s.Everywhere TidyNode

theorem WellFormedNode.isName (hr : r.Regular) (h : WellFormedNode r s) :
  Source.IsName s.name.toList
  := by
  obtain ⟨template, ht, -⟩ := h.shape
  obtain ⟨e, he, rfl, hname⟩ := Registry.mem_of_template? ht
  rw [← hname]
  apply (hr e he).name

theorem WellFormedNode.mapComments {f : String → String} (hf : f "" = "")
    (h : WellFormedNode r s) :
  WellFormedNode r (s.mapComments f)
  where
  shape := by
    obtain ⟨template, ht, hshape⟩ := h.shape
    use template
    rw [mapComments_eq_map]
    refine ⟨ht, hshape.name, hshape.title, hshape.category, hshape.fixedForm, hshape.declared,
      ?_, ?_⟩
    · rw [List.length_map]
      exact hshape.repeats
    · rw [List.length_map, List.forall₂_map_left_iff]
      apply hshape.params.imp
      exact fun p q hpq => ⟨hpq.name, hpq.kind, (Slot.category?_map _ _).trans hpq.category?⟩
  params p hp := by
    rw [params_mapComments] at hp
    obtain ⟨q, hq, rfl⟩ := List.mem_map.mp hp
    have hsound := h.params q hq
    constructor
    · apply (Slot.sound_map (category_mapComments f)).mpr hsound.slot
    · intro hliteral
      have hnone : q.comment = "" := by
        apply hsound.comment
        simpa [Param.mapComments, Param.isLiteral, Slot.isLiteral] using hliteral
      simp [Param.mapComments, hnone, hf]

theorem WellFormed.withoutComments (h : s.WellFormed r) :
  s.withoutComments.WellFormed r
  := Everywhere.mapComments h fun _ => WellFormedNode.mapComments rfl

theorem WellFormedNode.params_eq_nil (hr : r.Regular) (h : WellFormedNode r s)
    (hbare : s.fixedForm = true ∨ s.category = .builtin) :
  s.params = []
  := by
  obtain ⟨template, ht, hshape⟩ := h.shape
  obtain ⟨e, he, rfl, -⟩ := Registry.mem_of_template? ht
  apply hshape.params_eq_nil (hr e he) hbare

end Style

end BladeStyle
