import BladeStyle.Proofs.Parsing.Shape
import BladeStyle.Proofs.Registry.Form
import BladeStyle.Proofs.Style.Proper

/-!
# Parsed styles are proper

In the built-in templates only the last parameter is variadic.  A node with the shape of
such a template has the declared parameters and repeats of the last, so every style that is
parsed is proper.
-/

namespace BladeStyle

namespace Style

theorem WellFormedNode.properNode {r : Registry} {s : Style} (hr : r.Tailed)
    (h : WellFormedNode r s) :
  s.ProperNode
  := by
  obtain ⟨template, ht, hshape⟩ := h.shape
  obtain ⟨e, he, rfl, -⟩ := Registry.mem_of_template? ht
  use hshape.tailed (hr e he)
  intro p hp
  apply (h.params p hp).slot.fits

/-- Every style that is parsed with the built-in registry is proper. -/
theorem proper_of_parse {text : String} {s : Style} (h : parse text = .ok s) :
  s.Proper
  := by
  have hparsed := Registry.parsed_of_parse Registry.regular_builtin.uncommented h
  apply hparsed.wellFormed.imp
  intro s
  apply WellFormedNode.properNode Registry.tailed_builtin

end Style

end BladeStyle
