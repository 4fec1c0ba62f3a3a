import BladeStyle.Editing.History
import BladeStyle.Proofs.Editing.Effect

/-!
# Taking mutations back

The inverse that is recorded for a mutation of a proper tree takes it back: it is not
refused, and it gives the tree before the mutation.
-/

namespace BladeStyle

namespace Edit

variable {s t : Style}

/-- What was in a composite slot is put back, whatever style is in it now. -/
theorem apply_inverse?_detachStyle {i : Nat} {inverse : Edit} {p : Param Style} {slot : Slot Style}
    (hs : s.ProperNode) (hp : s.params[i]? = some p) (hslot : slot.category? = none)
    (hinverse : (detachStyle i).inverse? s = some inverse) :
  inverse.apply { s with params := s.params.set i { p with slot } } = .ok s
  := by
  have hfits := hs.fits p (List.mem_of_getElem? hp)
  have hliteral : Param.isLiteral { p with slot } = false := Param.isLiteral_eq_false.mpr hslot
  simp only [inverse?, hp, Option.map_some] at hinverse
  split at hinverse
  · next c hold =>
    obtain rfl := Option.some.inj hinverse
    rw [Option.some.inj hold] at hfits
    apply Style.updateParam_set hp
    rw [Param.fill_of_accepts hliteral hfits, ← Option.some.inj hold]
  · next hold =>
    obtain rfl := Option.some.inj hinverse
    apply Style.updateParam_set hp
    rw [hliteral, if_neg Bool.false_ne_true, Param.detached_eq hliteral, ← Option.some.inj hold]
  · cases hinverse

/-- What an edit of a proper node did is taken back by its inverse. -/
theorem apply_inverse? {e inverse : Edit} (hs : s.ProperNode) (h : e.apply s = .ok t)
    (hinverse : e.inverse? s = some inverse) :
  inverse.apply t = .ok s
  := by
  cases e with
  | setNumber i value =>
    obtain ⟨p, q, hp, hq, rfl⟩ := Style.updateParam_eq_ok.mp h
    obtain ⟨n, hslot, rfl⟩ := Param.storeNumber_eq_ok.mp hq
    have hfits := hs.fits p (List.mem_of_getElem? hp)
    rw [hslot] at hfits
    simp only [inverse?, hp, Option.map_some, hslot] at hinverse
    obtain rfl := Option.some.inj hinverse
    apply Style.updateParam_set hp
    apply Param.storeNumber_eq_ok.mpr
    refine ⟨_, rfl, ?_⟩
    rw [nearestNumber_of_mem hfits.1 hfits.2, ← hslot]
  | setBits i value =>
    obtain ⟨p, q, hp, hq, rfl⟩ := Style.updateParam_eq_ok.mp h
    obtain ⟨b, hslot, rfl⟩ := Param.storeBits_eq_ok.mp hq
    simp only [inverse?, hp, Option.map_some, hslot] at hinverse
    obtain rfl := Option.some.inj hinverse
    apply Style.updateParam_set hp
    apply Param.storeBits_eq_ok.mpr
    refine ⟨_, rfl, ?_⟩
    rw [lowBits_toNat b, ← hslot]
  | setBool i value =>
    obtain ⟨p, q, hp, hq, rfl⟩ := Style.updateParam_eq_ok.mp h
    obtain ⟨b, hslot, rfl⟩ := Param.storeBool_eq_ok.mp hq
    simp only [inverse?, hp, Option.map_some, hslot] at hinverse
    obtain rfl := Option.some.inj hinverse
    apply Style.updateParam_set hp
    apply Param.storeBool_eq_ok.mpr
    refine ⟨_, rfl, ?_⟩
    rw [← hslot]
  | setStyle i style =>
    obtain ⟨p, q, hp, hq, rfl⟩ := Style.updateParam_eq_ok.mp h
    obtain ⟨-, -, rfl⟩ := Param.fill_eq_ok hq
    apply apply_inverse?_detachStyle hs hp rfl hinverse
  | detachStyle i =>
    obtain ⟨p, hp, -, rfl⟩ := detachStyle_eq_ok.mp h
    apply apply_inverse?_detachStyle hs hp rfl hinverse
  | addParam i value =>
    obtain ⟨p, hremove⟩ := hs.removeRepeat_of_insertRepeat h
    obtain rfl := Option.some.inj hinverse
    rw [apply, hremove]
    rfl
  | removeParam i =>
    obtain ⟨⟨p, u⟩, hremove, rfl⟩ := exists_of_map_eq_ok h
    obtain ⟨hp, -⟩ := Style.removeRepeat_eq_ok.mp hremove
    simp only [inverse?, hp] at hinverse
    split at hinverse
    · next hcomment =>
      obtain ⟨value, hvalue, rfl⟩ := Option.map_eq_some_iff.mp hinverse
      apply hs.insertRepeat_of_removeRepeat hremove _ hcomment hvalue
      apply hs.fits p (List.mem_of_getElem? hp)
    · cases hinverse
  | setComment comment =>
    obtain rfl := Except.ok.inj h
    obtain rfl := Option.some.inj hinverse
    cases s
    rfl

end Edit

namespace Mutation

variable {m : Mutation} {root tree : Style}

/-- What a mutation of a proper tree did is taken back by its inverse. -/
theorem apply_inverse? {inverse : Mutation} (hroot : root.Proper) (h : m.apply root = .ok tree)
    (hinverse : m.inverse? root = some inverse) :
  inverse.apply tree = .ok root
  := by
  obtain ⟨node, t, hnode, ht, rfl⟩ := apply_eq_ok.mp h
  rw [inverse?, hnode, Option.bind_some] at hinverse
  obtain ⟨edit, hedit, rfl⟩ := Option.map_eq_some_iff.mp hinverse
  apply apply_eq_ok.mpr
  use t, node, Style.at?_replaceAt t hnode, Edit.apply_inverse? (hroot.at? hnode).here ht hedit
  exact (Style.replaceAt_replaceAt_of_at? t hnode).symm

end Mutation

end BladeStyle
