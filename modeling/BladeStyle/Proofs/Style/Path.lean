import BladeStyle.Style.Path
import BladeStyle.Proofs.Style.Tree
import Mathlib.Data.List.Basic

/-!
# Replacing nodes

Replacing the node at a path a second time undoes the first replacement, so a tree comes
back when its own node is put back.  A replacement is seen from the nodes above it only, and
from those only in the child on the way, so replacements at paths that part can be made in any
order.  What holds everywhere in a tree holds everywhere below a path.
-/

namespace BladeStyle

namespace Slot

variable {σ τ υ : Type}

theorem map_map (f : σ → τ) (g : τ → υ) (s : Slot σ) :
  (s.map f).map g = s.map (g ∘ f)
  := by
  cases s <;> rfl

end Slot

namespace Style

theorem child?_eq_some {s c : Style} {index : Nat} :
  s.child? index = some c ↔ ∃ p, s.params[index]? = some p ∧ p.slot = .child c
  := by
  simp only [child?, Option.bind_eq_some_iff, Param.child?, Slot.child?_eq_some]

theorem mapChild_mapChild (s : Style) (index : Nat) (f g : Style → Style) :
  (s.mapChild index f).mapChild index g = s.mapChild index (g ∘ f)
  := by
  simp only [mapChild, List.modify_modify_eq]
  congr 2
  ext1 p
  simp only [Function.comp_apply, Slot.map_map]

/-- Changing the child in a parameter puts another child into its slot. -/
theorem mapChild_eq_set {s c : Style} {index : Nat} (h : s.child? index = some c)
    (f : Style → Style) :
  ∃ p, s.params[index]? = some p ∧ p.slot = .child c
    ∧ s.mapChild index f = { s with params := s.params.set index { p with slot := .child (f c) } }
  := by
  obtain ⟨p, hp, hslot⟩ := child?_eq_some.mp h
  refine ⟨p, hp, hslot, ?_⟩
  rw [mapChild, List.modify_eq_set_getElem?, hp]
  simp only [Option.map_eq_map, Option.map_some, Option.getD_some, hslot, Slot.map]

theorem mapChild_eq_self {s c : Style} {index : Nat} {f : Style → Style}
    (h : s.child? index = some c) (hf : f c = c) :
  s.mapChild index f = s
  := by
  obtain ⟨p, hp, hslot, heq⟩ := mapChild_eq_set h f
  have hset : s.params.set index p = s.params := by
    obtain ⟨hlt, rfl⟩ := List.getElem?_eq_some_iff.mp hp
    apply List.set_getElem_self
  rw [heq, hf, ← hslot]
  apply withParams_eq_self hset

/-- The second of two replacements at a path is the one that counts. -/
theorem replaceAt_replaceAt (s : Style) (path : Path) (t u : Style) :
  (s.replaceAt path t).replaceAt path u = s.replaceAt path u
  := by
  induction path generalizing s with
  | nil => rfl
  | cons index path ih =>
    rw [replaceAt, replaceAt, replaceAt, mapChild_mapChild]
    congr 1
    ext1 c
    apply ih

/-- A tree with its own node put in its place is the same tree. -/
theorem replaceAt_of_at? {s n : Style} {path : Path} (h : s.at? path = some n) :
  s.replaceAt path n = s
  := by
  induction path generalizing s with
  | nil => exact (Option.some.inj h).symm
  | cons index path ih =>
    obtain ⟨c, hc, h⟩ := Option.bind_eq_some_iff.mp h
    apply mapChild_eq_self hc (ih h)

/-- The tree before a replacement comes back when the node it had is put back. -/
theorem replaceAt_replaceAt_of_at? {s n : Style} {path : Path} (t : Style)
    (h : s.at? path = some n) :
  (s.replaceAt path t).replaceAt path n = s
  := by
  rw [replaceAt_replaceAt, replaceAt_of_at? h]

/-- The walk of an edit in place finds the node that is read at the path, and putting another node
there replaces it. -/
theorem focus?_eq (s : Style) (path : Path) :
  s.focus? path = (s.at? path).map fun n => ⟨n, s.replaceAt path⟩
  := by
  induction path generalizing s with
  | nil => rfl
  | cons index path ih =>
    rw [focus?, at?]
    cases hchild : s.child? index with
    | none =>
      rw [Option.bind_none, Option.map_none, Option.bind_eq_none_iff]
      intro p hp
      split
      · next c hslot =>
        rw [child?_eq_some.mpr ⟨p, hp, hslot⟩] at hchild
        cases hchild
      · rfl
    | some c =>
      obtain ⟨p, hp, hslot⟩ := child?_eq_some.mp hchild
      rw [hp, Option.bind_some, Option.bind_some, hslot]
      dsimp only
      rw [ih, Option.map_map]
      congr 1
      ext1 n
      simp only [Function.comp_apply, Focus.mk.injEq, true_and]
      ext1 t
      obtain ⟨q, hq, -, hset⟩ := mapChild_eq_set hchild fun c => c.replaceAt path t
      obtain rfl := Option.some.inj (hp.symm.trans hq)
      rw [replaceAt, hset]

/-! ### Other paths -/

theorem at?_append (s : Style) (p q : Path) :
  s.at? (p ++ q) = (s.at? p).bind fun n => n.at? q
  := by
  induction p generalizing s with
  | nil => rfl
  | cons index p ih => simp only [List.cons_append, at?, Option.bind_assoc, ih]

theorem child?_mapChild_of_ne {s : Style} {index other : Nat} (f : Style → Style)
    (h : other ≠ index) :
  (s.mapChild index f).child? other = s.child? other
  := by
  simp only [mapChild, child?, List.getElem?_modify_ne _ _ (Ne.symm h)]

/-- A node on the way to the replaced one is the same up to what is replaced below it. -/
theorem at?_replaceAt_append (s : Style) (p q : Path) (t : Style) :
  (s.replaceAt (p ++ q) t).at? p = (s.at? p).map fun n => n.replaceAt q t
  := by
  induction p generalizing s with
  | nil => rfl
  | cons index p ih =>
    simp only [List.cons_append, replaceAt, at?, child?_mapChild]
    cases s.child? index with
    | none => rfl
    | some c => apply ih

/-- A node that is neither above nor below the replaced one is the same. -/
theorem at?_replaceAt_of_not_isPrefix {p q : Path} (s t : Style) (hpq : ¬ p <+: q)
    (hqp : ¬ q <+: p) :
  (s.replaceAt p t).at? q = s.at? q
  := by
  induction p generalizing s q with
  | nil => exact absurd List.nil_prefix hpq
  | cons index p ih =>
    cases q with
    | nil => exact absurd List.nil_prefix hqp
    | cons other q =>
      rw [replaceAt, at?, at?]
      by_cases h : other = index
      · subst h
        rw [child?_mapChild]
        rw [List.cons_prefix_cons, not_and] at hpq hqp
        cases s.child? other with
        | none => rfl
        | some c => apply ih c (hpq rfl) (hqp rfl)
      · rw [child?_mapChild_of_ne _ h]

theorem mapChild_comm (s : Style) {index other : Nat} (f g : Style → Style) (h : index ≠ other) :
  (s.mapChild index f).mapChild other g = (s.mapChild other g).mapChild index f
  := by
  simp only [mapChild, List.modify_modify_ne _ _ _ h]

/-- Replacements at two paths of which neither leads to the other can be made in any order. -/
theorem replaceAt_comm (s t u : Style) {p q : Path} (hpq : ¬ p <+: q) (hqp : ¬ q <+: p) :
  (s.replaceAt p t).replaceAt q u = (s.replaceAt q u).replaceAt p t
  := by
  induction p generalizing s q with
  | nil => exact absurd List.nil_prefix hpq
  | cons index p ih =>
    cases q with
    | nil => exact absurd List.nil_prefix hqp
    | cons other q =>
      simp only [replaceAt]
      by_cases h : index = other
      · -- below the same child the paths part later
        subst h
        rw [List.cons_prefix_cons, not_and] at hpq hqp
        rw [mapChild_mapChild, mapChild_mapChild]
        congr 1
        ext1 c
        apply ih c (hpq rfl) (hqp rfl)
      · apply mapChild_comm s _ _ h

/-! ### Everywhere -/

theorem Everywhere.child? {P : Style → Prop} {s c : Style} {index : Nat} (h : s.Everywhere P)
    (hc : s.child? index = some c) :
  c.Everywhere P
  := by
  obtain ⟨p, hp, hslot⟩ := child?_eq_some.mp hc
  apply h.child (List.mem_of_getElem? hp) hslot

/-- What holds everywhere in a tree holds everywhere below a path. -/
theorem Everywhere.at? {P : Style → Prop} {s n : Style} {path : Path} (h : s.Everywhere P)
    (hn : s.at? path = some n) :
  n.Everywhere P
  := by
  induction path generalizing s with
  | nil =>
    obtain rfl := Option.some.inj hn
    exact h
  | cons index path ih =>
    obtain ⟨c, hc, hn⟩ := Option.bind_eq_some_iff.mp hn
    apply ih (h.child? hc) hn

/-- What holds everywhere, and holds of a node with another child of the same category, holds
everywhere after a replacement by a tree of the same category. -/
theorem Everywhere.replaceAt {P : Style → Prop} {s n t : Style} {path : Path}
    (hs : s.Everywhere P)
    (hP : ∀ {s : Style} {index : Nat} {p : Param Style} {c d : Style}, P s →
      s.params[index]? = some p → p.slot = .child c → d.category = c.category →
        P { s with params := s.params.set index { p with slot := .child d } })
    (hn : s.at? path = some n) (ht : t.Everywhere P) (hcategory : t.category = n.category) :
  (s.replaceAt path t).Everywhere P ∧ (s.replaceAt path t).category = s.category
  := by
  induction path generalizing s with
  | nil =>
    obtain rfl := Option.some.inj hn
    exact ⟨ht, hcategory⟩
  | cons index path ih =>
    obtain ⟨c, hc, hn⟩ := Option.bind_eq_some_iff.mp hn
    obtain ⟨hbelow, hcategory⟩ := ih (hs.child? hc) hn
    obtain ⟨p, hp, hslot, heq⟩ := mapChild_eq_set hc fun c => c.replaceAt path t
    rw [Style.replaceAt, heq]
    refine ⟨node (hP hs.here hp hslot hcategory) ?_, rfl⟩
    intro q hq d hd
    rcases List.mem_or_eq_of_mem_set hq with hmem | rfl
    · apply hs.child hmem hd
    · obtain rfl := Slot.child.inj hd
      exact hbelow

end Style

end BladeStyle
