import BladeStyle.Proofs.Except
import BladeStyle.Proofs.Style.Slot
import BladeStyle.Proofs.Style.Tree

/-!
# What binding does

For every operation on the parameters of a node, when it succeeds and what it gives then.
A slot fits its parameter if it holds a number in range, a child that is accepted, or
nothing; whatever a parameter stores leaves it with a slot that fits.
-/

namespace BladeStyle

namespace Slot

/-- A slot of a parameter that is finished: numbers are in range, and a child is accepted. -/
def Sound (kind : Kind) : Slot Style → Prop
  | number n => leastNumber ≤ n ∧ n ≤ greatestNumber
  | bits _ | bool _ => True
  | empty => False
  | child c => kind.categories.accepts c.category = true

/-- A slot stays sound when its child is changed within its category. -/
theorem sound_map {kind : Kind} {f : Style → Style} (hf : ∀ c, (f c).category = c.category)
    {s : Slot Style} :
  (s.map f).Sound kind ↔ s.Sound kind
  := by
  cases s with
  | child c => simp only [map, Sound, hf]
  | number _ | bits _ | bool _ | empty => rfl

/-- A slot as a parameter keeps it: what a slot may hold when it is finished, or nothing. -/
def Fits (kind : Kind) : Slot Style → Prop
  | number n => leastNumber ≤ n ∧ n ≤ greatestNumber
  | bits _ | bool _ | empty => True
  | child c => kind.categories.accepts c.category = true

/-- What a finished slot holds a slot may hold. -/
theorem Sound.fits {kind : Kind} {s : Slot Style} (h : s.Sound kind) :
  s.Fits kind
  := by
  cases s with
  | empty => trivial
  | number _ | bits _ | bool _ | child _ => exact h

/-- A slot that holds something holds what a finished one may hold. -/
theorem Fits.sound {kind : Kind} {s : Slot Style} (h : s.Fits kind) (hne : s ≠ .empty) :
  s.Sound kind
  := by
  cases s with
  | empty => exact hne rfl
  | number _ | bits _ | bool _ | child _ => exact h

end Slot

/-- A word of sixteen bits is its own lowest sixteen bits. -/
@[simp]
theorem lowBits_toNat (b : BitVec 16) :
  lowBits (b.toNat : Int) = b
  := by
  rw [lowBits, BitVec.ofInt_natCast, BitVec.ofNat_toNat, BitVec.setWidth_eq]

namespace Param

variable {p q : Param Style}

/-- A value of the category of the old one leaves the slot the same. -/
theorem sameSlot_of_category? {slot : Slot Style} (h : slot.category? = p.slot.category?) :
  SameSlot { p with slot } p
  := ⟨rfl, rfl, h⟩

/-! ### Storing values -/

/-- A number is stored where a number is, and as the nearest one in range. -/
theorem storeNumber_eq_ok {value : Int} :
  p.storeNumber value = .ok q
    ↔ ∃ n, p.slot = .number n ∧ q = { p with slot := .number (nearestNumber value) }
  := by
  obtain ⟨name, kind, slot, comment⟩ := p
  cases slot with
  | number n => simp [storeNumber, eq_comm]
  | bits _ | bool _ | empty | child _ => simp [storeNumber]

/-- A word is stored where a word is, and its lowest sixteen bits are kept. -/
theorem storeBits_eq_ok {value : Int} :
  p.storeBits value = .ok q ↔ ∃ b, p.slot = .bits b ∧ q = { p with slot := .bits (lowBits value) }
  := by
  obtain ⟨name, kind, slot, comment⟩ := p
  cases slot with
  | bits b => simp [storeBits, eq_comm]
  | number _ | bool _ | empty | child _ => simp [storeBits]

/-- A truth value is stored where a truth value is. -/
theorem storeBool_eq_ok {value : Bool} :
  p.storeBool value = .ok q ↔ ∃ b, p.slot = .bool b ∧ q = { p with slot := .bool value }
  := by
  obtain ⟨name, kind, slot, comment⟩ := p
  cases slot with
  | bool b => simp [storeBool, eq_comm]
  | number _ | bits _ | empty | child _ => simp [storeBool]

/-- A composite parameter is one whose slot holds no literal value. -/
theorem isLiteral_eq_false :
  p.isLiteral = false ↔ p.slot.category? = none
  := by
  rw [isLiteral, Slot.isLiteral, Option.isSome_eq_false_iff, Option.isNone_iff_eq_none]

/-- Detaching empties a composite parameter. -/
theorem detached_eq (h : p.isLiteral = false) :
  p.detached = { p with slot := .empty }
  := by
  obtain ⟨name, kind, slot, comment⟩ := p
  cases slot with
  | number _ | bits _ | bool _ => cases h
  | empty | child _ => rfl

/-- A stored value is one that the slot can hold. -/
theorem sound_of_store {p q : Param Style} {value : Value} (h : p.store value = .ok q) :
  q.slot.Sound q.kind
  := by
  obtain ⟨name, kind, slot, comment⟩ := p
  cases value with
  | int n =>
    cases slot with
    | number _ =>
      obtain rfl := Except.ok.inj h
      apply nearestNumber_mem
    | bits _ | bool _ =>
      obtain rfl := Except.ok.inj h
      trivial
    | empty | child _ => cases h
  | style s =>
    obtain ⟨-, haccepts, rfl⟩ := fill_eq_ok h
    apply haccepts

/-- The child in a slot after storing is the value that was stored. -/
theorem child_of_store {value : Value} (h : p.store value = .ok q) {c : Style}
    (hc : q.slot = .child c) :
  value = .style c
  := by
  obtain ⟨name, kind, slot, comment⟩ := p
  cases value with
  | int n =>
    cases slot with
    | number _ | bits _ | bool _ =>
      obtain rfl := Except.ok.inj h
      cases hc
    | empty | child _ => cases h
  | style s =>
    obtain ⟨-, -, rfl⟩ := fill_eq_ok h
    rw [Slot.child.inj hc]

/-- A repeat looks like the parameter that it repeats. -/
theorem sameSlot_of_another {value : Value} (h : p.another value = .ok q) :
  q.SameSlot p
  := by
  rw [another_eq] at h
  apply (store_eq_ok h).1.trans (sameSlot_repeated p)

/-- A parameter without a comment is what storing its value in a repeat of it gives. -/
theorem another_of_value? {value : Value} (hfits : p.slot.Fits p.kind) (hcomment : p.comment = "")
    (h : p.value? = some value) :
  p.another value = .ok p
  := by
  obtain ⟨name, kind, slot, comment⟩ := p
  obtain rfl := hcomment
  cases slot with
  | number n =>
    obtain rfl := Option.some.inj h
    simp only [another, Slot.cleared, store, storeNumber, nearestNumber_of_mem hfits.1 hfits.2]
  | bits b =>
    obtain rfl := Option.some.inj h
    simp only [another, Slot.cleared, store, storeBits, lowBits_toNat]
  | bool b =>
    obtain rfl := Option.some.inj h
    cases b <;> rfl
  | empty => cases h
  | child c =>
    obtain rfl := Option.some.inj h
    apply fill_of_accepts rfl hfits

end Param

/-! ### Changing the list -/

namespace Style

variable {s t : Style} {index : Nat}

/-- One parameter is updated if there is one at the index and it can be changed. -/
theorem updateParam_eq_ok {f : Param Style → Except BindError (Param Style)} :
  s.updateParam index f = .ok t
    ↔ ∃ p q, s.params[index]? = some p ∧ f p = .ok q
        ∧ t = { s with params := s.params.set index q }
  := by
  rw [updateParam]
  cases s.params[index]? with
  | none => simp
  | some p =>
    cases hf : f p with
    | error e => simp [Except.map, hf]
    | ok q => simp [Except.map, hf, eq_comm]

/-- A change of a parameter is taken back by one that gives the old parameter. -/
theorem updateParam_set {p q : Param Style} {g : Param Style → Except BindError (Param Style)}
    (hp : s.params[index]? = some p) (hg : g q = .ok p) :
  updateParam { s with params := s.params.set index q } index g = .ok s
  := by
  obtain ⟨hlt, hget⟩ := List.getElem?_eq_some_iff.mp hp
  have hparams : (s.params.set index q).set index p = s.params := by
    rw [List.set_set, ← hget, List.set_getElem_self]
  apply updateParam_eq_ok.mpr
  use q, p, List.getElem?_set_self hlt, hg
  exact (withParams_eq_self (s := s) hparams).symm

/-- A further repeat comes from the variadic tail, which has to be there and to take the
value. -/
theorem nextRepeat_eq_ok {value : Value} {p : Param Style} :
  s.nextRepeat value = .ok p
    ↔ ∃ tail, s.params.getLast? = some tail ∧ tail.isVariadic = true
        ∧ tail.another value = .ok p
  := by
  rw [nextRepeat]
  cases s.params.getLast? with
  | none => simp
  | some tail => cases h : tail.isVariadic <;> simp [h]

/-- A repeat is inserted within the variadic part or at its end, if the tail takes the
value. -/
theorem insertRepeat_eq_ok {value : Value} :
  s.insertRepeat index value = .ok t
    ↔ s.declared ≤ index + 1 ∧ index ≤ s.params.length
        ∧ ∃ p, s.nextRepeat value = .ok p
          ∧ t = { s with params := s.params.insertIdx index p }
  := by
  rw [insertRepeat]
  split
  · next h =>
    simp only [reduceCtorEq, false_iff, not_and]
    omega
  · next h =>
    have hmin : s.declared ≤ index + 1 := by omega
    have hmax : index ≤ s.params.length := by omega
    cases s.nextRepeat value <;> simp [Except.map, hmin, hmax, eq_comm]

/-- A repeat is removed if it is variadic and there are more parameters than declared
ones. -/
theorem removeRepeat_eq_ok {p : Param Style} :
  s.removeRepeat index = .ok (p, t)
    ↔ s.params[index]? = some p ∧ p.isVariadic = true ∧ s.declared < s.params.length
        ∧ t = { s with params := s.params.eraseIdx index }
  := by
  rw [removeRepeat]
  cases s.params[index]? with
  | none => simp
  | some q =>
    constructor
    · intro h
      dsimp only at h
      split at h
      · cases h
      · next hvariadic =>
        split at h
        · cases h
        · next hlength =>
          obtain ⟨rfl, rfl⟩ := Prod.mk.inj (Except.ok.inj h)
          exact ⟨rfl, Decidable.of_not_not hvariadic, by omega, rfl⟩
    · rintro ⟨hq, hvariadic, hlength, rfl⟩
      obtain rfl := Option.some.inj hq
      dsimp only
      rw [if_neg (not_not_intro hvariadic), if_neg (by omega)]

end Style

end BladeStyle
