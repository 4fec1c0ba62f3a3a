import BladeStyle.Proofs.Style.Binding
import Mathlib.Data.List.InsertIdx
import Mathlib.Logic.Relation

/-!
# Calls on a node

Everything that can be done to the parameters of a node is a sequence of three alterations: a
parameter is exchanged for one of the same type, a repeat of the tail is inserted, or a repeat
is removed.  What is refused alters nothing, except that binding a whole list keeps the values
bound before the refusal.
-/

namespace BladeStyle

namespace Param

/-- What is done to a single parameter. -/
inductive Change where
  | number (value : Int)
  | bits (value : Int)
  | bool (value : Bool)
  | child (style : Style)
  | value (value : Value)
  | comment (comment : String)
  | detach

/-- The parameter after a change, unless it is refused. -/
def change (p : Param Style) : Change → Except BindError (Param Style)
  | .number value => p.storeNumber value
  | .bits value => p.storeBits value
  | .bool value => p.storeBool value
  | .child style => p.fill style
  | .value value => p.store value
  | .comment comment => .ok { p with comment }
  | .detach => .ok p.detached

/-- A changed parameter is of the same type, and its slot is as before, emptied, or holds a
value that was stored. -/
theorem change_eq_ok {p q : Param Style} {c : Change} (h : p.change c = .ok q) :
  q.SameSlot p ∧ (q.slot = p.slot ∨ q.slot = .empty ∨ q.slot.Sound q.kind)
  := by
  have hstore : ∀ value, p.store value = .ok q →
      q.SameSlot p ∧ (q.slot = p.slot ∨ q.slot = .empty ∨ q.slot.Sound q.kind) :=
    fun value h => ⟨(store_eq_ok h).1, Or.inr (Or.inr (sound_of_store h))⟩
  cases c with
  | number value =>
    obtain ⟨n, hslot, rfl⟩ := storeNumber_eq_ok.mp h
    refine ⟨sameSlot_of_category? (by rw [hslot]; rfl), Or.inr (Or.inr ?_)⟩
    apply nearestNumber_mem
  | bits value =>
    obtain ⟨b, hslot, rfl⟩ := storeBits_eq_ok.mp h
    exact ⟨sameSlot_of_category? (by rw [hslot]; rfl), Or.inr (Or.inr trivial)⟩
  | bool value =>
    obtain ⟨b, hslot, rfl⟩ := storeBool_eq_ok.mp h
    exact ⟨sameSlot_of_category? (by rw [hslot]; rfl), Or.inr (Or.inr trivial)⟩
  | child style => apply hstore (.style style) h
  | value value => apply hstore value h
  | comment comment =>
    obtain rfl := Except.ok.inj h
    exact ⟨⟨rfl, rfl, rfl⟩, Or.inl rfl⟩
  | detach =>
    obtain rfl := Except.ok.inj h
    obtain ⟨name, kind, slot, comment⟩ := p
    cases slot with
    | number _ | bits _ | bool _ | empty => exact ⟨SameSlot.refl _, Or.inl rfl⟩
    | child c => exact ⟨⟨rfl, rfl, rfl⟩, Or.inr (Or.inl rfl)⟩

end Param

namespace Style

/-- What is done to the parameters of a node. -/
inductive Call where
  | bind (index : Nat) (value : Value)
  | bindAll (values : List Value)
  | append (value : Value)
  | insert (index : Nat) (value : Value)
  | remove (index : Nat)
  | change (index : Nat) (change : Param.Change)

/-- The node after something that may be refused, and stays as it is then. -/
def attempt (s : Style) : Except BindError Style → Style × Except BindError Unit
  | .ok t => (t, .ok ())
  | .error e => (s, .error e)

/-- The node after a call, and whether the call was refused. -/
def call (s : Style) : Call → Style × Except BindError Unit
  | .bind index value => s.attempt (s.bindAt index value)
  | .bindAll values => s.bindAll values
  | .append value => s.attempt (s.appendRepeat value)
  | .insert index value => s.attempt (s.insertRepeat index value)
  | .remove index => s.attempt ((s.removeRepeat index).map Prod.snd)
  | .change index change => s.attempt (s.updateParam index (·.change change))

/-- The node after a number of calls, refused or not. -/
def callAll (s : Style) (calls : List Call) : Style := calls.foldl (fun s c => (s.call c).1) s

/-- The three ways in which a parameter list is altered.  A repeat is inserted in the variadic
part of the list or at its end. -/
inductive Alteration (s : Style) : Style → Prop where
  | set {i : Nat} {p q : Param Style} (hp : s.params[i]? = some p) (hsame : q.SameSlot p)
      (hslot : q.slot = p.slot ∨ q.slot = .empty ∨ q.slot.Sound q.kind) :
      Alteration s { s with params := s.params.set i q }
  | insert {i : Nat} {tail q : Param Style} (hmin : min s.declared s.params.length ≤ i + 1)
      (hmax : i ≤ s.params.length) (htail : s.params.getLast? = some tail)
      (hvariadic : tail.isVariadic = true) (hsame : q.SameSlot tail)
      (hslot : q.slot.Sound q.kind) :
      Alteration s { s with params := s.params.insertIdx i q }
  | erase {i : Nat} {p : Param Style} (hp : s.params[i]? = some p)
      (hvariadic : p.isVariadic = true) (hlength : s.declared < s.params.length) :
      Alteration s { s with params := s.params.eraseIdx i }

/-- A node that comes of another one by alterations. -/
abbrev Alterations : Style → Style → Prop := Relation.ReflTransGen Alteration

variable {s t : Style} {index : Nat} {value : Value}

theorem alteration_of_change {c : Param.Change} (h : s.updateParam index (·.change c) = .ok t) :
  s.Alteration t
  := by
  obtain ⟨p, q, hp, hq, rfl⟩ := updateParam_eq_ok.mp h
  obtain ⟨hsame, hslot⟩ := Param.change_eq_ok hq
  apply Alteration.set hp hsame hslot

theorem alteration_of_bindAt (h : s.bindAt index value = .ok t) :
  s.Alteration t
  := alteration_of_change (c := .value value) h

/-- A repeat that is put anywhere in the variadic part or at the end. -/
theorem alteration_of_nextRepeat {p : Param Style} (h : s.nextRepeat value = .ok p)
    (hmin : min s.declared s.params.length ≤ index + 1) (hmax : index ≤ s.params.length) :
  s.Alteration { s with params := s.params.insertIdx index p }
  := by
  obtain ⟨tail, htail, hvariadic, hanother⟩ := nextRepeat_eq_ok.mp h
  apply Alteration.insert hmin hmax htail hvariadic
  · apply Param.sameSlot_of_another hanother
  · apply Param.sound_of_store hanother

theorem alteration_of_appendRepeat (h : s.appendRepeat value = .ok t) :
  s.Alteration t
  := by
  obtain ⟨p, hp, rfl⟩ := exists_of_map_eq_ok h
  have hmin : min s.declared s.params.length ≤ s.params.length + 1 := by omega
  have halteration := alteration_of_nextRepeat hp hmin (Nat.le_refl _)
  rwa [List.insertIdx_length_self] at halteration

theorem alteration_of_insertRepeat (h : s.insertRepeat index value = .ok t) :
  s.Alteration t
  := by
  obtain ⟨hmin, hmax, p, hp, rfl⟩ := insertRepeat_eq_ok.mp h
  apply alteration_of_nextRepeat hp _ hmax
  omega

theorem alteration_of_removeRepeat (h : (s.removeRepeat index).map Prod.snd = .ok t) :
  s.Alteration t
  := by
  obtain ⟨⟨p, u⟩, hremove, rfl⟩ := exists_of_map_eq_ok h
  obtain ⟨hp, hvariadic, hlength, rfl⟩ := removeRepeat_eq_ok.mp hremove
  apply Alteration.erase hp hvariadic hlength

theorem alterations_attempt {result : Except BindError Style}
    (h : ∀ t, result = .ok t → s.Alteration t) :
  s.Alterations (s.attempt result).1
  := by
  cases result with
  | ok t => apply Relation.ReflTransGen.single (h t rfl)
  | error e => apply Relation.ReflTransGen.refl

/-- Whatever is bound before a refusal is bound value by value. -/
theorem alterations_bindFrom (s : Style) (index : Nat) (values : List Value) :
  s.Alterations (s.bindFrom index values).1
  := by
  induction values generalizing s index with
  | nil => apply Relation.ReflTransGen.refl
  | cons value values ih =>
    rw [bindFrom]
    split
    · next t ht =>
      have halteration : s.Alteration t := by
        split at ht
        · apply alteration_of_bindAt ht
        · apply alteration_of_appendRepeat ht
      apply Relation.ReflTransGen.head halteration (ih t (index + 1))
    · apply Relation.ReflTransGen.refl

theorem alterations_call (s : Style) (c : Call) :
  s.Alterations (s.call c).1
  := by
  cases c with
  | bind index value => apply alterations_attempt fun t => alteration_of_bindAt
  | bindAll values =>
    rw [call, bindAll]
    split
    · apply Relation.ReflTransGen.refl
    · apply alterations_bindFrom
  | append value => apply alterations_attempt fun t => alteration_of_appendRepeat
  | insert index value => apply alterations_attempt fun t => alteration_of_insertRepeat
  | remove index => apply alterations_attempt fun t => alteration_of_removeRepeat
  | change index change => apply alterations_attempt fun t => alteration_of_change

/-- A run of calls is a sequence of alterations; by induction on the run. -/
theorem alterations_callAll (s : Style) (calls : List Call) :
  s.Alterations (s.callAll calls)
  := by
  induction calls generalizing s with
  | nil => apply Relation.ReflTransGen.refl
  | cons c calls ih => apply (alterations_call s c).trans (ih (s.call c).1)

end Style

end BladeStyle
