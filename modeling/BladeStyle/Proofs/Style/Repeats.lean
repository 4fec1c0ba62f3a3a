import BladeStyle.Proofs.Style.Binding
import Mathlib.Data.List.InsertIdx

/-!
# Repeats

The parameters of a node are the declared ones and, if the last of these is variadic,
repeats of it.  A node is made with its declared parameters, of which only the last may be
variadic; storing a value, inserting a repeat and removing one keep it so.  A repeat that
was inserted can be removed again, and one that was removed can be inserted again.
-/

namespace BladeStyle

/-! ### Lists of parameters that look alike -/

namespace Param

variable {declared : Nat} {ps qs rs : List (Param Style)}

/-- Each parameter of `qs` looks like one of `ps`, at the same position or both in the
variadic part. -/
def Alike (declared : Nat) (ps qs : List (Param Style)) : Prop :=
  ∀ i q, qs[i]? = some q → ∃ j p, ps[j]? = some p ∧ q.SameSlot p
    ∧ (i = j ∨ declared ≤ i + 1 ∧ declared ≤ j + 1)

theorem Alike.trans (h : Alike declared ps qs) (h' : Alike declared qs rs) :
  Alike declared ps rs
  := by
  intro i r hr
  obtain ⟨j, q, hq, hrq, hij⟩ := h' i r hr
  obtain ⟨k, p, hp, hqp, hjk⟩ := h j q hq
  refine ⟨k, p, hp, hrq.trans hqp, ?_⟩
  omega

theorem alike_set {index : Nat} {p q : Param Style} (hp : ps[index]? = some p)
    (hsame : q.SameSlot p) (declared : Nat) :
  Alike declared ps (ps.set index q)
  := by
  intro i p' hp'
  rw [List.getElem?_set] at hp'
  split at hp'
  · next hi =>
    obtain rfl := hi
    split at hp'
    · obtain rfl := Option.some.inj hp'
      exact ⟨index, p, hp, hsame, Or.inl rfl⟩
    · cases hp'
  · exact ⟨i, p', hp', SameSlot.refl p', Or.inl rfl⟩

theorem alike_insertIdx {index : Nat} {tail q : Param Style} (hmin : declared ≤ index + 1)
    (hle : declared ≤ ps.length) (htail : ps.getLast? = some tail) (hsame : q.SameSlot tail) :
  Alike declared ps (ps.insertIdx index q)
  := by
  intro i p hp
  rw [List.getElem?_insertIdx] at hp
  split at hp
  · exact ⟨i, p, hp, SameSlot.refl p, Or.inl rfl⟩
  · split at hp
    · split at hp
      · obtain rfl := Option.some.inj hp
        rw [List.getLast?_eq_getElem?] at htail
        exact ⟨_, tail, htail, hsame, Or.inr ⟨by omega, by omega⟩⟩
      · cases hp
    · exact ⟨_, p, hp, SameSlot.refl p, Or.inr ⟨by omega, by omega⟩⟩

theorem alike_eraseIdx {index : Nat} (hmin : declared ≤ index + 1) :
  Alike declared ps (ps.eraseIdx index)
  := by
  intro i p hp
  rw [List.getElem?_eraseIdx] at hp
  split at hp
  · exact ⟨i, p, hp, SameSlot.refl p, Or.inl rfl⟩
  · exact ⟨_, p, hp, SameSlot.refl p, Or.inr ⟨by omega, by omega⟩⟩

end Param

/-! ### The variadic tail -/

namespace Style

variable {s t : Style}

/-- From the last declared parameter on every parameter repeats that one, and none before
it is variadic. -/
structure Tailed (s : Style) : Prop where
  declared_le : s.declared ≤ s.params.length
  declared_pos : s.params ≠ [] → 0 < s.declared
  fixed : ∀ i p, s.params[i]? = some p → i + 1 < s.declared → p.isVariadic = false
  repeats : ∀ i j p q, s.params[i]? = some p → s.params[j]? = some q →
    s.declared ≤ i + 1 → s.declared ≤ j + 1 → p.SameSlot q

/-- Of the parameters that a node is made with, only the last may be variadic. -/
theorem tailed_of_declared (hdeclared : s.declared = s.params.length)
    (hfixed : ∀ p ∈ s.params.dropLast, p.isVariadic = false) :
  s.Tailed
  where
  declared_le := Nat.le_of_eq hdeclared
  declared_pos hne := by
    rw [hdeclared]
    apply List.length_pos_of_ne_nil hne
  fixed i p hp hi := by
    apply hfixed
    apply List.mem_of_getElem? (i := i)
    rw [hdeclared] at hi
    rw [List.getElem?_dropLast, if_pos (Nat.lt_sub_of_add_lt hi)]
    exact hp
  repeats i j p q hp hq hi hj := by
    have hilt := (List.getElem?_eq_some_iff.mp hp).1
    have hjlt := (List.getElem?_eq_some_iff.mp hq).1
    obtain rfl : i = j := by omega
    obtain rfl := Option.some.inj (hp.symm.trans hq)
    apply Param.SameSlot.refl

namespace Tailed

/-- A node stays as it is if each of its new parameters looks like an old one, at the same
position or both in the variadic part. -/
theorem of_sameSlot (hs : s.Tailed) (hdeclared : t.declared = s.declared)
    (hle : s.declared ≤ t.params.length)
    (hsame : Param.Alike s.declared s.params t.params) :
  t.Tailed
  where
  declared_le := by
    rw [hdeclared]
    exact hle
  declared_pos hne := by
    obtain ⟨p, hp⟩ := List.exists_mem_of_ne_nil _ hne
    obtain ⟨i, hi⟩ := List.mem_iff_getElem?.mp hp
    obtain ⟨j, q, hq, -⟩ := hsame i p hi
    rw [hdeclared]
    apply hs.declared_pos (List.ne_nil_of_mem (List.mem_of_getElem? hq))
  fixed i p hp hi := by
    rw [hdeclared] at hi
    obtain ⟨j, q, hq, hpq, hij⟩ := hsame i p hp
    rw [hpq.isVariadic]
    apply hs.fixed j q hq
    omega
  repeats i j p q hp hq hi hj := by
    rw [hdeclared] at hi hj
    obtain ⟨i', p', hp', hpp', hii'⟩ := hsame i p hp
    obtain ⟨j', q', hq', hqq', hjj'⟩ := hsame j q hq
    have hpq : p'.SameSlot q' := by
      apply hs.repeats i' j' p' q' hp' hq'
      · omega
      · omega
    apply hpp'.trans (hpq.trans hqq'.symm)

theorem set {index : Nat} {p q : Param Style} (hs : s.Tailed) (hp : s.params[index]? = some p)
    (hsame : q.SameSlot p) :
  Tailed { s with params := s.params.set index q }
  := by
  apply hs.of_sameSlot
  · rfl
  · rw [List.length_set]
    exact hs.declared_le
  · apply Param.alike_set hp hsame

theorem insertIdx {index : Nat} {tail q : Param Style} (hs : s.Tailed)
    (hmin : s.declared ≤ index + 1) (hmax : index ≤ s.params.length)
    (htail : s.params.getLast? = some tail) (hsame : q.SameSlot tail) :
  Tailed { s with params := s.params.insertIdx index q }
  := by
  have hle := hs.declared_le
  apply hs.of_sameSlot
  · rfl
  · rw [List.length_insertIdx_of_le_length hmax]
    omega
  · apply Param.alike_insertIdx hmin hle htail hsame

theorem eraseIdx {index : Nat} (hs : s.Tailed) (hmin : s.declared ≤ index + 1)
    (hlength : s.declared < s.params.length) :
  Tailed { s with params := s.params.eraseIdx index }
  := by
  apply hs.of_sameSlot
  · rfl
  · have hle := List.le_length_eraseIdx s.params index
    dsimp only
    omega
  · apply Param.alike_eraseIdx hmin

/-- A variadic parameter is the last declared one or a repeat of it. -/
theorem declared_le_succ {index : Nat} {p : Param Style} (hs : s.Tailed)
    (hp : s.params[index]? = some p) (hvariadic : p.isVariadic = true) :
  s.declared ≤ index + 1
  := by
  by_contra hlt
  have hfixed := hs.fixed index p hp (by omega)
  rw [hvariadic] at hfixed
  cases hfixed

/-- Without one of its repeats the list still ends in one. -/
theorem exists_getLast?_eraseIdx {index : Nat} {p : Param Style} (hs : s.Tailed)
    (hp : s.params[index]? = some p) (hmin : s.declared ≤ index + 1)
    (hlength : s.declared < s.params.length) :
  ∃ tail, (s.params.eraseIdx index).getLast? = some tail ∧ tail.SameSlot p
  := by
  have hlt := (List.getElem?_eq_some_iff.mp hp).1
  have hpos := hs.declared_pos (List.ne_nil_of_mem (List.mem_of_getElem? hp))
  rw [List.getLast?_eq_getElem?, List.length_eraseIdx_of_lt hlt, List.getElem?_eraseIdx]
  split
  · have htail := List.getElem?_eq_getElem (l := s.params) (i := s.params.length - 1 - 1) (by omega)
    exact ⟨_, htail, hs.repeats _ _ _ _ htail hp (by omega) hmin⟩
  · have hlast : s.params.length - 1 - 1 + 1 < s.params.length := by omega
    have htail := List.getElem?_eq_getElem hlast
    exact ⟨_, htail, hs.repeats _ _ _ _ htail hp (by omega) hmin⟩

/-- An inserted repeat can be removed again. -/
theorem removeRepeat_of_insertRepeat {index : Nat} {value : Value} (hs : s.Tailed)
    (h : s.insertRepeat index value = .ok t) :
  ∃ p, t.removeRepeat index = .ok (p, s)
  := by
  obtain ⟨hmin, hmax, p, hp, rfl⟩ := insertRepeat_eq_ok.mp h
  obtain ⟨tail, -, hvariadic, hanother⟩ := nextRepeat_eq_ok.mp hp
  use p
  apply removeRepeat_eq_ok.mpr
  refine ⟨?_, ?_, ?_, ?_⟩
  · rw [List.getElem?_insertIdx_self, if_pos hmax]
  · rw [(Param.sameSlot_of_another hanother).isVariadic]
    exact hvariadic
  · rw [List.length_insertIdx_of_le_length hmax]
    apply Nat.lt_succ_of_le hs.declared_le
  · exact (withParams_eq_self (s := s) (List.eraseIdx_insertIdx_self p)).symm

/-- A removed repeat can be inserted again if it has a value that fits and no comment. -/
theorem insertRepeat_of_removeRepeat {index : Nat} {p : Param Style} {value : Value}
    (hs : s.Tailed) (h : s.removeRepeat index = .ok (p, t)) (hfits : p.slot.Fits p.kind)
    (hcomment : p.comment = "") (hvalue : p.value? = some value) :
  t.insertRepeat index value = .ok s
  := by
  obtain ⟨hp, hvariadic, hlength, rfl⟩ := removeRepeat_eq_ok.mp h
  obtain ⟨hlt, hget⟩ := List.getElem?_eq_some_iff.mp hp
  have hmin := hs.declared_le_succ hp hvariadic
  obtain ⟨tail, htail, hsame⟩ := hs.exists_getLast?_eraseIdx hp hmin hlength
  have hparams : (s.params.eraseIdx index).insertIdx index p = s.params := by
    rw [← hget, List.insertIdx_eraseIdx_getElem]
  apply insertRepeat_eq_ok.mpr
  refine ⟨hmin, ?_, p, ?_, (withParams_eq_self (s := s) hparams).symm⟩
  · rw [List.length_eraseIdx_of_lt hlt]
    apply Nat.le_sub_one_of_lt hlt
  · apply nextRepeat_eq_ok.mpr
    use tail, htail, hsame.isVariadic.trans hvariadic
    rw [hsame.another]
    apply Param.another_of_value? hfits hcomment hvalue

end Tailed

end Style

end BladeStyle
