import BladeStyle.CategorySet

/-!
# Kinds

The kind of a node or of a slot: a set of categories, two flags and an optional
reference back to an earlier parameter.  For a node the set holds its one category;
for a slot it holds the categories that the slot accepts.
-/

namespace BladeStyle

/-- A reference to a parameter by its position, counted from one. -/
structure Reference where
  index : Nat
  one_le : 1 ≤ index
  le_max : index ≤ 255
  deriving DecidableEq

namespace Reference

/-- The reference to parameter `index`; there is none to parameter zero. -/
def ofNat? (index : Nat) : Option Reference :=
  if h : 1 ≤ index ∧ index ≤ 255 then some ⟨index, h.1, h.2⟩ else none

/-- The highest position that a parameter may be declared to refer to. -/
def cap : Nat := 8

/-- The reference that a declaration yields: positions beyond the cap mean the cap. -/
def capped? (index : Nat) : Option Reference := ofNat? (min index cap)

end Reference

/-- The type tag of a node or of a slot. -/
structure Kind where
  categories : CategorySet
  variadic : Bool
  fixedForm : Bool
  reference : Option Reference
  deriving DecidableEq

namespace Kind

/-- The kind with the given categories and nothing else. -/
def accepting (categories : CategorySet) : Kind := ⟨categories, false, false, none⟩

/-- The kind of a single category. -/
def of (c : Category) : Kind := accepting (CategorySet.singleton c)

/-- The category of a kind that has exactly one. -/
def category? (k : Kind) : Option Category := k.categories.single?

/-- Whether the set holds a literal category. -/
def isLiteral (k : Kind) : Bool := k.categories.inter CategorySet.literals ≠ CategorySet.empty

/-- The categories, with dots after them if the kind is variadic. -/
def display (k : Kind) : String :=
  k.categories.display ++ if k.variadic then "..." else ""

end Kind

end BladeStyle
