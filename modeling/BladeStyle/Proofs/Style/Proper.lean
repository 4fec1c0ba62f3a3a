import BladeStyle.Proofs.Style.Path
import BladeStyle.Proofs.Style.Repeats

/-!
# Proper trees

A tree is proper if it was made by the constructors and changed through its parameters, and
every child is accepted by its slot: the parameters of every node are the declared ones and
repeats of the last, and every slot fits its parameter.  Filling a slot, inserting a repeat and
removing one leave a node proper.
-/

namespace BladeStyle

namespace Style

variable {s t : Style}

/-- A node as the constructors make it and changes of its parameters leave it, with
children that are accepted. -/
structure ProperNode (s : Style) : Prop extends Tailed s where
  fits : ∀ p ∈ s.params, p.slot.Fits p.kind

namespace ProperNode

/-- A node with new parameters is proper if they fit. -/
theorem withParams {params : List (Param Style)} (hs : s.ProperNode)
    (htailed : Tailed { s with params })
    (h : ∀ p ∈ params, p ∈ s.params ∨ p.slot.Fits p.kind) :
  ProperNode { s with params }
  where
  toTailed := htailed
  fits p hp := by
    rcases h p hp with hmem | hfits
    · apply hs.fits p hmem
    · exact hfits

theorem withComment (hs : s.ProperNode) (comment : String) :
  ProperNode { s with comment }
  := ⟨⟨hs.declared_le, hs.declared_pos, hs.fixed, hs.repeats⟩, hs.fits⟩

/-- A slot can be filled anew with a value of its type that fits. -/
theorem setSlot {index : Nat} {p : Param Style} {slot : Slot Style} (hs : s.ProperNode)
    (hp : s.params[index]? = some p) (htype : slot.category? = p.slot.category?)
    (hfits : slot.Fits p.kind) :
  ProperNode { s with params := s.params.set index { p with slot } }
  := by
  apply hs.withParams
  · apply hs.set hp (Param.sameSlot_of_category? htype)
  · intro q hq
    rcases List.mem_or_eq_of_mem_set hq with hmem | rfl
    · exact Or.inl hmem
    · exact Or.inr hfits

theorem insertRepeat {index : Nat} {value : Value} (hs : s.ProperNode)
    (h : s.insertRepeat index value = .ok t) :
  t.ProperNode
  := by
  obtain ⟨hmin, hmax, p, hp, rfl⟩ := insertRepeat_eq_ok.mp h
  obtain ⟨tail, htail, -, hanother⟩ := nextRepeat_eq_ok.mp hp
  apply hs.withParams
  · apply hs.insertIdx hmin hmax htail (Param.sameSlot_of_another hanother)
  · intro q hq
    rcases (List.mem_insertIdx hmax).mp hq with rfl | hmem
    · exact Or.inr (Param.sound_of_store hanother).fits
    · exact Or.inl hmem

theorem removeRepeat {index : Nat} {p : Param Style} (hs : s.ProperNode)
    (h : s.removeRepeat index = .ok (p, t)) :
  t.ProperNode
  := by
  obtain ⟨hp, hvariadic, hlength, rfl⟩ := removeRepeat_eq_ok.mp h
  apply hs.withParams
  · apply hs.eraseIdx (hs.declared_le_succ hp hvariadic) hlength
  · intro q hq
    exact Or.inl (List.mem_of_mem_eraseIdx hq)

end ProperNode

/-- A tree of proper nodes. -/
def Proper (s : Style) : Prop := s.Everywhere ProperNode

/-- A node that is made without parameters is proper. -/
theorem Proper.of_params_eq_nil (hparams : s.params = []) (hdeclared : s.declared = 0) :
  s.Proper
  := by
  constructor
  · constructor
    · apply tailed_of_declared
      · rw [hdeclared, hparams]
        rfl
      · rw [hparams]
        apply List.forall_mem_nil
    · rw [hparams]
      apply List.forall_mem_nil
  · rw [hparams]
    apply List.forall_mem_nil

end Style

end BladeStyle
