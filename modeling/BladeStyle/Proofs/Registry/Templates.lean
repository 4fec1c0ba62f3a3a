import BladeStyle.Proofs.Source.Assembly
import BladeStyle.Proofs.Style.Slot
import BladeStyle.Registry

/-!
# Templates of a registry

A template that a name stands for is an entry of the registry under that name.  A registry
is uncommented if no declared parameter carries a comment, and regular if moreover its
names are identifiers and the templates that are written without brackets have no
parameters.
-/

namespace BladeStyle

/-- A template whose expressions can be read back: an identifier for its name, no
parameters where it is written without brackets, and no comments. -/
structure Style.RegularTemplate (template : Style) : Prop where
  name : Source.IsName template.name.toList
  bare : template.fixedForm = true ∨ template.category = .builtin → template.params = []
  uncommented : ∀ p ∈ template.params, p.comment = ""

namespace Registry

/-- No declared parameter carries a comment. -/
def Uncommented (r : Registry) : Prop :=
  ∀ e ∈ r.entries, ∀ p ∈ e.template.params, p.comment = ""

/-- The expressions of every template can be read back. -/
def Regular (r : Registry) : Prop := ∀ e ∈ r.entries, e.template.RegularTemplate

/-- The templates of a regular registry have no comments. -/
theorem Regular.uncommented {r : Registry} (hr : r.Regular) :
  r.Uncommented
  := fun e he => (hr e he).uncommented

/-- A template that is found in a section was registered there under its name. -/
theorem mem_of_get? {r : Registry} {home : Section} {name : String} {template : Style}
    (h : r.get? home name = some template) :
  ∃ e ∈ r.entries, e.home = home ∧ e.template = template ∧ template.name = name
  := by
  obtain ⟨e, he, rfl⟩ := Option.map_eq_some_iff.mp h
  have htest := List.find?_some he
  simp only [Bool.decide_and, Bool.and_eq_true, decide_eq_true_eq] at htest
  use e, List.mem_of_find?_eq_some he, htest.1, rfl, htest.2

/-- A template that is found under a name was registered under that name, in one of the
sections. -/
theorem mem_of_template? {r : Registry} {name : String} {template : Style}
    (h : r.template? name = some template) :
  ∃ e ∈ r.entries, e.template = template ∧ template.name = name
  := by
  obtain ⟨⟨home, _⟩, hfind, rfl⟩ := Option.map_eq_some_iff.mp h
  obtain ⟨home', -, hget⟩ := List.exists_of_findSome?_eq_some hfind
  obtain ⟨t, ht, hpair⟩ := Option.map_eq_some_iff.mp hget
  obtain ⟨rfl, rfl⟩ := Prod.mk.inj hpair
  obtain ⟨e, he, -, htemplate, hname⟩ := mem_of_get? ht
  use e

/-- Where templates have no comments, their slots have none either, however many are
given. -/
theorem Uncommented.slots {r : Registry} (hr : r.Uncommented) {name : String} {template : Style}
    (h : r.template? name = some template) (given : Nat) :
  ∀ p ∈ template.slots given, p.comment = ""
  := by
  obtain ⟨e, he, rfl, -⟩ := mem_of_template? h
  intro p
  apply Style.comment_of_mem_slots (hr e he)

end Registry

end BladeStyle
