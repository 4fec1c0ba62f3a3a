import BladeStyle.Proofs.Registry.Templates
import BladeStyle.Registry.Builtin

/-!
# The built-in registry is regular

Every entry of a registry that was made from a list is in the list, and every built-in
template has an identifier for its name, no comments, and no parameters where it is written
without brackets.
-/

namespace BladeStyle

instance : DecidablePred Source.IsName
  | [] => isFalse (by rintro ⟨_, _, ⟨⟩, _⟩)
  | c :: cs =>
    decidable_of_iff
      (Source.isNameStart c = true ∧ cs.all Source.isNamePart = true) (by
        rw [List.all_eq_true]
        constructor
        · rintro ⟨hc, hcs⟩
          exact ⟨c, cs, rfl, hc, hcs⟩
        · rintro ⟨d, ds, e, hd, hds⟩
          obtain ⟨rfl, rfl⟩ := List.cons.inj e
          exact ⟨hd, hds⟩)

instance : DecidablePred Style.RegularTemplate := fun template =>
  decidable_of_iff
    (Source.IsName template.name.toList
      ∧ (template.fixedForm = true ∨ template.category = .builtin → template.params = [])
      ∧ ∀ p ∈ template.params, p.comment = "")
    ⟨fun h => ⟨h.1, h.2.1, h.2.2⟩, fun h => ⟨h.name, h.bare, h.uncommented⟩⟩

namespace Registry

theorem mem_of_mem_ofList {templates : List (Section × Style)} {e : Entry}
    (h : e ∈ (ofList templates).entries) :
  (e.home, e.template) ∈ templates
  := by
  have key : ∀ (ts : List (Section × Style)) (r : Registry),
      e ∈ (ts.foldl (fun r t => r.insert t.1 t.2) r).entries →
        e ∈ r.entries ∨ (e.home, e.template) ∈ ts := by
    intro ts
    induction ts with
    | nil => exact fun r h => Or.inl h
    | cons t ts ih =>
      intro r h
      rcases ih _ h with h | h
      · rcases Entry.mem_of_mem_insert h with rfl | h
        · exact Or.inr (List.mem_cons_self)
        · exact Or.inl h
      · exact Or.inr (List.mem_cons_of_mem t h)
  rcases key templates empty h with h | h
  · cases h
  · exact h

/-- What holds of every built-in template holds of every entry. -/
theorem forall_mem_builtin {P : Style → Prop}
    (h : ∀ home ∈ Section.all, ∀ template ∈ Builtin.templates home, P template) :
  ∀ e ∈ builtin.entries, P e.template
  := by
  intro e he
  obtain ⟨home, hhome, hmem⟩ := List.mem_flatMap.mp (mem_of_mem_ofList he)
  obtain ⟨template, htemplate, heq⟩ := List.mem_map.mp hmem
  obtain ⟨-, rfl⟩ := Prod.mk.inj heq
  apply h home hhome _ htemplate

/-- The built-in registry is regular. -/
theorem regular_builtin :
  builtin.Regular
  := by
  apply forall_mem_builtin
  decide +kernel

end Registry

end BladeStyle
