import BladeStyle.Proofs.Registry.Form
import BladeStyle.Proofs.Style.Alteration

/-!
# The shape that calls keep

A node that was just made is its own template: all of its parameters are declared, and only
the last may be variadic.  Whatever is called on it afterwards, in any order and refused or
not, leaves it in the shape of that template.  Its numbers stay in range, since no constructor
and no call stores another one, and a child that its slot accepts is only ever replaced by
another such child.
-/

namespace BladeStyle

/-! ### What a slot holds -/

namespace Slot

variable {kind : Kind} {s : Slot Style}

/-- A slot that holds no number out of range. -/
def InRange : Slot Style → Prop
  | number n => leastNumber ≤ n ∧ n ≤ greatestNumber
  | bits _ | bool _ | empty | child _ => True

/-- A slot that holds no child which a parameter of this kind refuses. -/
def Accepted (kind : Kind) : Slot Style → Prop
  | child c => kind.categories.accepts c.category = true
  | number _ | bits _ | bool _ | empty => True

/-- A finished slot holds no number out of range. -/
theorem Sound.inRange (h : s.Sound kind) :
  s.InRange
  := by
  cases s with
  | number n => exact h
  | bits _ | bool _ | empty | child _ => trivial

/-- A finished slot holds no child that its parameter refuses. -/
theorem Sound.accepted (h : s.Sound kind) :
  s.Accepted kind
  := by
  cases s with
  | child c => exact h
  | number _ | bits _ | bool _ | empty => trivial

end Slot

/-! ### New nodes -/

namespace Param

/-- A parameter as it can be made: by a constructor, by changing another one or as a repeat
of another one. -/
inductive Made : Param Style → Prop where
  | ofNumber (name : String) (initial : Int) : Made (Param.ofNumber name initial)
  | ofBits (name : String) (initial : Int) : Made (Param.ofBits name initial)
  | ofBool (name : String) (initial : Bool) : Made (Param.ofBool name initial)
  | ofStyle (name : String) (accepts : CategorySet) (initial : Option Style) :
      Made (Param.ofStyle name accepts initial)
  | asVariadic {p : Param Style} : Made p → Made p.asVariadic
  | referringTo {p : Param Style} (index : Nat) : Made p → Made (p.referringTo index)
  | changed {p q : Param Style} {c : Change} : Made p → p.change c = .ok q → Made q
  | repeated {p q : Param Style} {value : Value} : Made p → p.another value = .ok q → Made q

/-- A parameter that was made holds no number out of range. -/
theorem Made.inRange {p : Param Style} (h : p.Made) :
  p.slot.InRange
  := by
  induction h with
  | ofNumber name initial => apply nearestNumber_mem
  | ofBits | ofBool => trivial
  | ofStyle name accepts initial => cases initial <;> trivial
  | asVariadic _ ih => exact ih
  | referringTo _ _ ih => exact ih
  | changed _ hq ih =>
    obtain ⟨-, hslot | hslot | hsound⟩ := change_eq_ok hq
    · rwa [hslot]
    · rw [hslot]
      trivial
    · apply hsound.inRange
  | repeated _ hq _ => apply (sound_of_store hq).inRange

end Param

namespace Style

/-- A node as it is made, of parameters of which only the last may be variadic. -/
inductive Made : Style → Prop where
  | ofParams (name title : String) (category : Category) {params : List (Param Style)}
      (hparams : ∀ p ∈ params, p.Made) (hfixed : ∀ p ∈ params.dropLast, p.isVariadic = false) :
      Made (Style.ofParams name title category params)
  | asFixedForm {s : Style} : Made s → Made s.asFixedForm

namespace Made

variable {s : Style}

/-- All parameters of a node that was made are declared ones. -/
theorem declared_eq (h : s.Made) :
  s.declared = s.params.length
  := by
  induction h with
  | ofParams => rfl
  | asFixedForm _ ih => exact ih

/-- Only the last parameter of a node that was made is variadic. -/
theorem tailed (h : s.Made) :
  s.Tailed
  := by
  apply tailed_of_declared h.declared_eq
  induction h with
  | ofParams _ _ _ _ hfixed => exact hfixed
  | asFixedForm _ ih => exact ih

/-- No parameter of a node that was made holds a number out of range. -/
theorem inRange (h : s.Made) :
  ∀ p ∈ s.params, p.slot.InRange
  := by
  induction h with
  | ofParams _ _ _ hparams _ => exact fun p hp => (hparams p hp).inRange
  | asFixedForm _ ih => exact ih

end Made

/-! ### What an alteration keeps -/

variable {template s t : Style}

/-- Every node has its own shape. -/
theorem HasShape.refl (s : Style) :
  HasShape s s
  where
  name := rfl
  title := rfl
  category := rfl
  fixedForm := rfl
  declared := rfl
  repeats := Or.inl (Nat.le_refl _)
  params := by
    rw [slots_of_le (Nat.le_refl _)]
    apply List.forall₂_same.mpr
    exact fun p _ => Param.SameSlot.refl p

/-- An alteration keeps the shape that a template gives. -/
theorem HasShape.alteration (h : HasShape template s) (htailed : template.Tailed)
    (hdeclared : template.declared = template.params.length) (ha : s.Alteration t) :
  HasShape template t
  := by
  have hs := h.tailed htailed
  have hle := hs.declared_le
  cases ha with
  | @set i p q hp hsame =>
    apply h.withParams hdeclared
    · rwa [List.length_set]
    · apply Param.alike_set hp hsame
    · exact Or.inl (Nat.le_of_eq (List.length_set ..))
  | @insert i tail q hmin hmax htail hvariadic hsame =>
    apply h.withParams hdeclared
    · rw [List.length_insertIdx_of_le_length hmax]
      omega
    · apply Param.alike_insertIdx (by omega) hle htail hsame
    · rw [isVariadic, htail]
      exact Or.inr hvariadic
  | @erase i p hp hvariadic hlength =>
    have hlt := (List.getElem?_eq_some_iff.mp hp).1
    apply h.withParams hdeclared
    · rw [List.length_eraseIdx_of_lt hlt]
      omega
    · apply Param.alike_eraseIdx (hs.declared_le_succ hp hvariadic)
    · exact Or.inl (List.length_eraseIdx_le ..)

/-- What holds of empty slots and of finished ones still holds of all slots of a node, if it
held of all of them before. -/
theorem Alteration.forall_slots {P : Kind → Slot Style → Prop} (hempty : ∀ kind, P kind .empty)
    (hsound : ∀ kind (slot : Slot Style), slot.Sound kind → P kind slot) (ha : s.Alteration t)
    (hs : ∀ p ∈ s.params, P p.kind p.slot) :
  ∀ p ∈ t.params, P p.kind p.slot
  := by
  cases ha with
  | @set i p q hp hsame hslot =>
    intro p' hp'
    rcases List.mem_or_eq_of_mem_set hp' with hold | rfl
    · apply hs p' hold
    · rcases hslot with hslot | hslot | hslot
      · rw [hslot, hsame.kind]
        apply hs p (List.mem_of_getElem? hp)
      · rw [hslot]
        apply hempty
      · apply hsound _ _ hslot
  | @insert i tail q _ hmax _ _ _ hslot =>
    intro p' hp'
    rcases List.eq_or_mem_of_mem_insertIdx hp' with rfl | hold
    · apply hsound _ _ hslot
    · apply hs p' hold
  | erase => exact fun p hp => hs p (List.mem_of_mem_eraseIdx hp)

/-- Any number of alterations keep the shape that a template gives. -/
theorem Alterations.hasShape (h : s.Alterations t) (hs : HasShape template s)
    (htailed : template.Tailed) (hdeclared : template.declared = template.params.length) :
  HasShape template t
  := by
  induction h with
  | refl => exact hs
  | tail _ ha ih => apply ih.alteration htailed hdeclared ha

/-- What holds of empty and of sound slots holds of every slot after any number of
alterations if it did before. -/
theorem Alterations.forall_slots {P : Kind → Slot Style → Prop} (hempty : ∀ kind, P kind .empty)
    (hsound : ∀ kind (slot : Slot Style), slot.Sound kind → P kind slot) (h : s.Alterations t)
    (hs : ∀ p ∈ s.params, P p.kind p.slot) :
  ∀ p ∈ t.params, P p.kind p.slot
  := by
  induction h with
  | refl => exact hs
  | tail _ ha ih => apply ha.forall_slots hempty hsound ih

/-! ### What is kept of a new node -/

/-- What stays of a node `s` in a node `t` that it has become.  No declared parameter is lost,
and from the last declared one on a variadic node consists of parameters like that one. -/
structure Retains (s t : Style) : Prop where
  name : t.name = s.name
  title : t.title = s.title
  category : t.category = s.category
  fixedForm : t.fixedForm = s.fixedForm
  declared : t.declared = s.declared
  isVariadic : t.isVariadic = s.isVariadic
  declared_le : t.declared ≤ t.params.length
  length_eq : t.isVariadic = false → t.params.length = t.declared
  params : ∀ (i : Nat) (p : Param Style), s.params[i]? = some p →
    ∃ q, t.params[i]? = some q ∧ q.SameSlot p
  repeats : t.isVariadic = true → ∀ (i : Nat) (q : Param Style), t.params[i]? = some q →
    t.declared ≤ i + 1 → ∃ tail, s.params.getLast? = some tail ∧ q.SameSlot tail

/-- The parameters of a template are there in every node of its shape, at their indices. -/
theorem HasShape.exists_of_getElem?_template (h : HasShape template s) {i : Nat} {p : Param Style}
    (hp : template.params[i]? = some p) :
  ∃ q, s.params[i]? = some q ∧ q.SameSlot p
  := by
  obtain ⟨hi, -⟩ := List.getElem?_eq_some_iff.mp hp
  have hlt := Nat.lt_of_lt_of_le hi h.length_le
  have hget := List.getElem?_eq_getElem hlt
  obtain ⟨j, q, hq, hsame, hij⟩ := h.exists_of_getElem? hget
  obtain rfl : i = j := by omega
  obtain rfl := Option.some.inj (hq.symm.trans hp)
  exact ⟨_, hget, hsame⟩

/-- A node of the shape of a template is variadic if the template is. -/
theorem HasShape.isVariadic (h : HasShape template s) :
  s.isVariadic = template.isVariadic
  := by
  rw [Bool.eq_iff_iff]
  refine ⟨h.isVariadic_template, fun hvariadic => ?_⟩
  obtain ⟨tail, htail, hvariadic⟩ := exists_of_isVariadic hvariadic
  have hlast : ∃ slot, (template.slots s.params.length).getLast? = some slot
      ∧ slot.SameSlot tail := by
    rw [slots_eq htail, List.getLast?_append, List.getLast?_replicate, htail]
    split
    · exact ⟨tail, rfl, Param.SameSlot.refl tail⟩
    · exact ⟨tail.repeated, rfl, Param.sameSlot_repeated tail⟩
  obtain ⟨slot, hslot, hsame⟩ := hlast
  obtain ⟨p, hp, hsame'⟩ := Param.SameSlot.exists_getLast? h.params hslot
  rw [Style.isVariadic, hp]
  exact (hsame'.trans hsame).isVariadic.trans hvariadic

/-- A node that has the shape of another one, all of whose parameters are declared,
retains what that one has. -/
theorem HasShape.retains (h : HasShape s t) (hdeclared : s.declared = s.params.length) :
  s.Retains t
  where
  name := h.name
  title := h.title
  category := h.category
  fixedForm := h.fixedForm
  declared := h.declared
  isVariadic := h.isVariadic
  declared_le := by
    rw [h.declared, hdeclared]
    apply h.length_le
  length_eq hfixed := by
    rw [h.isVariadic] at hfixed
    rw [h.declared, hdeclared]
    rcases h.repeats with hmax | hvariadic
    · apply Nat.le_antisymm hmax h.length_le
    · rw [hvariadic] at hfixed
      cases hfixed
  params _ _ hp := h.exists_of_getElem?_template hp
  repeats _ i q hq hi := by
    rw [h.declared, hdeclared] at hi
    obtain ⟨j, tail, htail, hsame, hij⟩ := h.exists_of_getElem? hq
    obtain ⟨hj, -⟩ := List.getElem?_eq_some_iff.mp htail
    obtain rfl : j = s.params.length - 1 := by omega
    exact ⟨tail, List.getLast?_eq_getElem?.trans htail, hsame⟩

/-- Whatever is called on the parameters of a new node leaves its shape as it was made, its
numbers in range, and its children accepted if they were so from the start. -/
theorem calls_keep_shape {s : Style} (hs : s.Made) (calls : List Call) :
  s.Retains (s.callAll calls)
    ∧ (∀ p ∈ (s.callAll calls).params, p.slot.InRange)
    ∧ ((∀ p ∈ s.params, p.slot.Accepted p.kind) →
        ∀ p ∈ (s.callAll calls).params, p.slot.Accepted p.kind)
  := by
  have halterations := alterations_callAll s calls
  refine ⟨?_, ?_, ?_⟩
  · have hshape := halterations.hasShape (HasShape.refl s) hs.tailed hs.declared_eq
    apply hshape.retains hs.declared_eq
  · apply halterations.forall_slots (P := fun _ slot => slot.InRange)
    · exact fun _ => trivial
    · exact fun _ _ => Slot.Sound.inRange
    · apply hs.inRange
  · intro haccepted
    apply halterations.forall_slots (P := Slot.Accepted)
    · exact fun _ => trivial
    · exact fun _ _ => Slot.Sound.accepted
    · exact haccepted

/-- A node of a number and any number of colours, of which the first is given. -/
def blend (first : Option Style) : Style :=
  ofParams "Blend" "Blend" .color
    [.ofNumber "Position" 70000, (Param.ofStyle "Color" (.singleton .color) first).asVariadic]

/-- Calls of which every kind occurs.  The list is bound up to its last value, which is no
colour, and the last repeat to be removed is a declared parameter. -/
def blendCalls (red green : Style) : List Call :=
  [.bindAll [.int 40000, .style red, .style green, .int 3], .insert 1 (.style green),
    .append (.style red), .change 2 (.comment "first"), .remove 1, .remove 1, .remove 1,
    .remove 1, .change 0 (.bits 4), .change 0 (.number (-99999)), .change 1 .detach,
    .bind 1 (.style red), .insert 0 (.style red)]

theorem calls_keep_shape_blend :
  let red := ofParams "Red" "Red" .color []
  let green := (ofParams "Green" "Green" .color []).asFixedForm
  let t := (blend (some green)).callAll (blendCalls red green)
  (blend (some green)).Made
    ∧ t.params.map (·.slot) = [.number (-32768), .child red]
    ∧ (blend (some green)).Retains t
    ∧ ∀ p ∈ t.params, p.slot.InRange ∧ p.slot.Accepted p.kind
  := by
  intro red green t
  have hmade : (blend (some green)).Made := by
    apply Made.ofParams
    · intro p hp
      rcases List.mem_pair.mp hp with rfl | rfl
      · apply Param.Made.ofNumber
      · apply Param.Made.asVariadic
        apply Param.Made.ofStyle
    · decide
  obtain ⟨hretains, hrange, haccepted⟩ := calls_keep_shape hmade (blendCalls red green)
  refine ⟨hmade, by decide, hretains, fun p hp => ⟨hrange p hp, haccepted ?_ p hp⟩⟩
  intro p hp
  rcases List.mem_pair.mp hp with rfl | rfl
  · trivial
  · change (CategorySet.inter (.singleton .color) .nodes).accepts .color = true
    decide

end Style

end BladeStyle
