import BladeStyle.Style.Binding
import Mathlib.Data.List.Forall2

/-!
# Slots of the same type

Two parameters have the same slot if they differ at most in their value and their comment.
Storing a value keeps the slot, and the slot alone decides which values can be stored and
what a further repeat of the parameter looks like.
-/

namespace BladeStyle

/-- Slots for values of one category are cleared alike. -/
theorem Slot.cleared_eq_of_category? {σ : Type} {s t : Slot σ} (h : s.category? = t.category?) :
  s.cleared = t.cleared
  := by
  cases s <;> cases t <;> first | rfl | cases h

namespace Param

variable {p q t : Param Style}

/-- Parameters of the same name and type. -/
structure SameSlot (p q : Param Style) : Prop where
  name : p.name = q.name
  kind : p.kind = q.kind
  category? : p.slot.category? = q.slot.category?

theorem SameSlot.refl (p : Param Style) :
  SameSlot p p
  := ⟨rfl, rfl, rfl⟩

theorem SameSlot.symm (h : SameSlot p q) :
  SameSlot q p
  := ⟨h.name.symm, h.kind.symm, h.category?.symm⟩

theorem SameSlot.trans (h : SameSlot p q) (h' : SameSlot q t) :
  SameSlot p t
  := ⟨h.name.trans h'.name, h.kind.trans h'.kind, h.category?.trans h'.category?⟩

theorem SameSlot.isLiteral (h : SameSlot p q) :
  p.isLiteral = q.isLiteral
  := by
  rw [Param.isLiteral, Param.isLiteral, Slot.isLiteral, Slot.isLiteral, h.category?]

/-- Parameters with the same slot are variadic together. -/
theorem SameSlot.isVariadic (h : SameSlot p q) :
  p.isVariadic = q.isVariadic
  := by
  rw [Param.isVariadic, Param.isVariadic, h.kind]

/-- The parameter with nothing, zero or false in it and without a comment, as a repeat is
before it gets its value. -/
def repeated (p : Param Style) : Param Style := { p with slot := p.slot.cleared, comment := "" }

/-- A further repeat is a fresh copy of the tail that stores the value. -/
theorem another_eq (p : Param Style) (value : Value) :
  p.another value = p.repeated.store value
  := rfl

/-- A fresh copy of a parameter has the same slot. -/
theorem sameSlot_repeated (p : Param Style) :
  SameSlot p.repeated p
  := ⟨rfl, rfl, Slot.category?_cleared p.slot⟩

/-- Parameters with the same slot have the same fresh copy. -/
theorem SameSlot.repeated (h : SameSlot p q) :
  p.repeated = q.repeated
  := by
  simp only [Param.repeated, h.name, h.kind, Slot.cleared_eq_of_category? h.category?]

/-- Parameters with the same slot have the same further repeats. -/
theorem SameSlot.another (h : SameSlot p q) (value : Value) :
  p.another value = q.another value
  := by
  rw [another_eq, another_eq, h.repeated]

/-- Parameters with the slots of a template have a last one with the last slot. -/
theorem SameSlot.exists_getLast? {ps slots : List (Param Style)}
    (h : List.Forall₂ SameSlot ps slots) {tail : Param Style}
    (htail : slots.getLast? = some tail) :
  ∃ p, ps.getLast? = some p ∧ SameSlot p tail
  := by
  induction h with
  | nil => cases htail
  | @cons p slot ps slots hp hps ih =>
    cases hps with
    | nil =>
      obtain rfl := Option.some.inj htail
      exact ⟨p, rfl, hp⟩
    | cons =>
      rw [List.getLast?_cons_cons] at htail ⊢
      apply ih htail

/-! ### Storing values -/

/-- A stored child is one that the slot accepts. -/
theorem fill_eq_ok {style : Style} (h : p.fill style = .ok q) :
  p.isLiteral = false ∧ p.kind.categories.accepts style.category = true
    ∧ q = { p with slot := .child style }
  := by
  simp only [fill] at h
  split at h
  · cases h
  · next hliteral =>
    split at h
    · next haccepts => exact ⟨by simpa using hliteral, haccepts, (Except.ok.inj h).symm⟩
    · cases h

/-- A composite parameter takes a child of a category that it accepts. -/
theorem fill_of_accepts {style : Style} (hliteral : p.isLiteral = false)
    (h : p.kind.categories.accepts style.category = true) :
  p.fill style = .ok { p with slot := .child style }
  := by
  rw [fill, hliteral, if_neg Bool.false_ne_true, if_pos h]

/-- Storing a value changes what is in the slot and nothing else. -/
theorem store_eq_ok {value : Value} (h : p.store value = .ok q) :
  SameSlot q p ∧ q.comment = p.comment
  := by
  obtain ⟨name, kind, slot, comment⟩ := p
  cases value with
  | int n =>
    cases slot with
    | number _ | bits _ | bool _ =>
      obtain rfl := Except.ok.inj h
      exact ⟨⟨rfl, rfl, rfl⟩, rfl⟩
    | empty | child _ => cases h
  | style s =>
    obtain ⟨hliteral, -, rfl⟩ := fill_eq_ok h
    refine ⟨⟨rfl, rfl, ?_⟩, rfl⟩
    cases slot <;> first | rfl | cases hliteral

end Param

/-! ### The slots of a template -/

namespace Style

/-- The slots of a template for a number of arguments. -/
def slots (template : Style) (given : Nat) : List (Param Style) :=
  match template.params.getLast? with
  | none => []
  | some tail =>
    template.params ++ List.replicate (given - template.params.length) tail.repeated

/-- The slots of a template are its parameters and, for the others that are given, copies
of the last one. -/
theorem slots_eq {template : Style} {tail : Param Style}
    (h : template.params.getLast? = some tail) (given : Nat) :
  template.slots given
    = template.params ++ List.replicate (given - template.params.length) tail.repeated
  := by
  rw [slots, h]

/-- No slots are added for parameters that the template has. -/
theorem slots_of_le {template : Style} {given : Nat} (h : given ≤ template.params.length) :
  template.slots given = template.params
  := by
  cases hlast : template.params.getLast? with
  | none => rw [slots, hlast, List.getLast?_eq_none_iff.mp hlast]
  | some tail => rw [slots_eq hlast, Nat.sub_eq_zero_of_le h, List.replicate_zero, List.append_nil]

/-- The tail of a variadic node is its last parameter. -/
theorem exists_of_isVariadic {s : Style} (h : s.isVariadic = true) :
  ∃ tail, s.params.getLast? = some tail ∧ tail.isVariadic = true
  := by
  simp only [isVariadic] at h
  split at h
  · next tail hlast => exact ⟨tail, hlast, h⟩
  · cases h

/-- There are as many slots as arguments, if the template can take that many. -/
theorem length_slots {template : Style} {given : Nat} (hmin : template.params.length ≤ given)
    (hmax : given ≤ template.params.length ∨ template.isVariadic = true) :
  (template.slots given).length = given
  := by
  rcases hmax with hmax | hvariadic
  · rw [slots_of_le hmax]
    omega
  · obtain ⟨tail, hlast, -⟩ := exists_of_isVariadic hvariadic
    rw [slots_eq hlast, List.length_append, List.length_replicate]
    omega

/-- Slots have no comments if the template has none. -/
theorem comment_of_mem_slots {template : Style} (h : ∀ p ∈ template.params, p.comment = "")
    {given : Nat} {p : Param Style} (hp : p ∈ template.slots given) :
  p.comment = ""
  := by
  cases hlast : template.params.getLast? with
  | none =>
    rw [slots, hlast] at hp
    cases hp
  | some tail =>
    rw [slots_eq hlast] at hp
    rcases List.mem_append.mp hp with hp | hp
    · apply h p hp
    · obtain ⟨-, rfl⟩ := List.mem_replicate.mp hp
      rfl

end Style

end BladeStyle
