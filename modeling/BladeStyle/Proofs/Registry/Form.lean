import BladeStyle.Proofs.Registry.Builtin
import BladeStyle.Proofs.Registry.Shape
import BladeStyle.Proofs.Style.Repeats

/-!
# Nodes in the shape of their template

The parameters of a node in the shape of a template look like the parameters of the template,
at the same position or past the end like the last one.  Conversely a node stays in the shape
of its template when its parameters are exchanged for others that look like them.
-/

namespace BladeStyle

namespace Style

variable {template s : Style}

/-- Every slot for an argument looks like a declared parameter: the one at its position, or
the last one if the argument is past the end. -/
theorem exists_of_getElem?_slots {given i : Nat} {slot : Param Style}
    (h : (template.slots given)[i]? = some slot) :
  ∃ j p, template.params[j]? = some p ∧ slot.SameSlot p
    ∧ (i = j ∨ template.params.length ≤ i ∧ template.params.length ≤ j + 1)
  := by
  cases htail : template.params.getLast? with
  | none =>
    rw [slots, htail] at h
    cases h
  | some tail =>
    rw [slots_eq htail, List.getElem?_append] at h
    split at h
    · exact ⟨i, slot, h, Param.SameSlot.refl slot, Or.inl rfl⟩
    · next hlength =>
      obtain ⟨-, rfl⟩ := List.mem_replicate.mp (List.mem_of_getElem? h)
      rw [List.getLast?_eq_getElem?] at htail
      exact ⟨_, tail, htail, Param.sameSlot_repeated tail, Or.inr ⟨by omega, by omega⟩⟩

namespace HasShape

/-- Every parameter of a node looks like a parameter of its template: the one at its
position, or the last one if it is past the end. -/
theorem exists_of_getElem? (h : HasShape template s) {i : Nat} {p : Param Style}
    (hp : s.params[i]? = some p) :
  ∃ j q, template.params[j]? = some q ∧ p.SameSlot q
    ∧ (i = j ∨ template.params.length ≤ i ∧ template.params.length ≤ j + 1)
  := by
  obtain ⟨hi, rfl⟩ := List.getElem?_eq_some_iff.mp hp
  have hi' : i < (template.slots s.params.length).length := h.params.length_eq ▸ hi
  have hsame := h.params.get hi hi'
  obtain ⟨j, q, hq, hslot, hij⟩ := exists_of_getElem?_slots (List.getElem?_eq_getElem hi')
  exact ⟨j, q, hq, hsame.trans hslot, hij⟩

theorem alike (h : HasShape template s) :
  Param.Alike template.params.length template.params s.params
  := by
  intro i p hp
  obtain ⟨j, q, hq, hsame, hij⟩ := h.exists_of_getElem? hp
  refine ⟨j, q, hq, hsame, ?_⟩
  omega

/-- A node with the shape of a template repeats the same parameter as the template. -/
theorem tailed (h : HasShape template s) (ht : template.Tailed) :
  s.Tailed
  := by
  have hle := ht.declared_le
  apply ht.of_sameSlot h.declared (Nat.le_trans hle h.length_le)
  intro i p hp
  obtain ⟨j, q, hq, hsame, hij⟩ := h.alike i p hp
  refine ⟨j, q, hq, hsame, ?_⟩
  omega

theorem isVariadic_template (h : HasShape template s) (hs : s.isVariadic = true) :
  template.isVariadic = true
  := by
  obtain ⟨tail, htail, hvariadic⟩ := exists_of_isVariadic hs
  rw [List.getLast?_eq_getElem?] at htail
  obtain ⟨j, q, hq, hsame, hij⟩ := h.exists_of_getElem? htail
  have hlast : template.params.getLast? = some q := by
    have hle := h.length_le
    obtain ⟨hj, -⟩ := List.getElem?_eq_some_iff.mp hq
    obtain rfl : template.params.length - 1 = j := by omega
    rw [List.getLast?_eq_getElem?, hq]
  simp only [isVariadic, hlast]
  rw [← hsame.isVariadic, hvariadic]

/-- Parameters that look like those of a template fill its slots one by one. -/
theorem forall₂_slots {params : List (Param Style)}
    (hle : template.params.length ≤ params.length)
    (h : Param.Alike template.params.length template.params params) :
  List.Forall₂ Param.SameSlot params (template.slots params.length)
  := by
  cases htail : template.params.getLast? with
  | none =>
    have hnil : params = [] := by
      rw [List.eq_nil_iff_forall_not_mem]
      intro p hp
      obtain ⟨i, hi⟩ := List.mem_iff_getElem?.mp hp
      obtain ⟨j, q, hq, -⟩ := h i p hi
      rw [List.getLast?_eq_none_iff.mp htail] at hq
      cases hq
    rw [hnil, slots, htail]
    apply List.Forall₂.nil
  | some tail =>
    rw [slots_eq htail]
    rw [List.getLast?_eq_getElem?] at htail
    apply List.forall₂_iff_get.mpr
    constructor
    · rw [List.length_append, List.length_replicate]
      omega
    · intro i hi hi'
      obtain ⟨j, q, hq, hsame, hij⟩ := h i _ (List.getElem?_eq_getElem hi)
      obtain ⟨hj, hget⟩ := List.getElem?_eq_some_iff.mp hq
      simp only [List.get_eq_getElem, List.getElem_append]
      split
      · next hlt =>
        obtain rfl : i = j := by omega
        rw [hget]
        exact hsame
      · next hlt =>
        obtain rfl : j = template.params.length - 1 := by omega
        obtain rfl := Option.some.inj (hq.symm.trans htail)
        rw [List.getElem_replicate]
        apply hsame.trans (Param.sameSlot_repeated q).symm

/-- A node keeps its shape with parameters that look like its own, no fewer than declared
and, without a variadic tail, no more than before. -/
theorem withParams (h : HasShape template s)
    (hdeclared : template.declared = template.params.length)
    {params : List (Param Style)} (hle : s.declared ≤ params.length)
    (halike : Param.Alike s.declared s.params params)
    (hrepeats : params.length ≤ s.params.length ∨ s.isVariadic = true) :
  HasShape template { s with params }
  where
  name := h.name
  title := h.title
  category := h.category
  fixedForm := h.fixedForm
  declared := h.declared
  repeats := by
    rcases hrepeats with hlength | hvariadic
    · rcases h.repeats with hmax | hvariadic
      · exact Or.inl (Nat.le_trans hlength hmax)
      · exact Or.inr hvariadic
    · exact Or.inr (h.isVariadic_template hvariadic)
  params := by
    rw [h.declared, hdeclared] at hle halike
    apply forall₂_slots hle (h.alike.trans halike)

theorem withComment (h : HasShape template s) (comment : String) :
  HasShape template { s with comment }
  := ⟨h.name, h.title, h.category, h.fixedForm, h.declared, h.repeats, h.params⟩

end HasShape

end Style

namespace Registry

/-- Only the last parameter of every template is variadic. -/
def Tailed (r : Registry) : Prop := ∀ e ∈ r.entries, e.template.Tailed

/-- All parameters of every template are declared ones. -/
def Declared (r : Registry) : Prop :=
  ∀ e ∈ r.entries, e.template.declared = e.template.params.length

theorem declared_builtin :
  builtin.Declared
  := by
  apply forall_mem_builtin (P := fun template => template.declared = template.params.length)
  decide +kernel

theorem tailed_builtin :
  builtin.Tailed
  := by
  have hfixed : ∀ e ∈ builtin.entries,
      ∀ p ∈ e.template.params.dropLast, p.isVariadic = false := by
    apply forall_mem_builtin (P := fun template =>
      ∀ p ∈ template.params.dropLast, p.isVariadic = false)
    decide +kernel
  intro e he
  apply Style.tailed_of_declared (declared_builtin e he) (hfixed e he)

end Registry

end BladeStyle
