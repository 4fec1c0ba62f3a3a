import BladeStyle.Category

/-!
# Sets of categories

A set of categories is a word of sixteen bits, the bit of a category being its
position.  The two highest bits name no category; a set keeps them, and its stored
form shows them as one hexadecimal number after the names.  A slot accepts the
categories of its set.
-/

namespace BladeStyle

/-- A set of categories, with two bits that name none. -/
structure CategorySet where
  bits : BitVec 16
  deriving DecidableEq

namespace CategorySet

/-- The set without any bit. -/
def empty : CategorySet := ⟨0⟩

/-- The set of a single category. -/
def singleton (c : Category) : CategorySet := ⟨BitVec.twoPow 16 c.position⟩

def union (s t : CategorySet) : CategorySet := ⟨s.bits ||| t.bits⟩

def inter (s t : CategorySet) : CategorySet := ⟨s.bits &&& t.bits⟩

/-- The set of the listed categories. -/
def ofList (cs : List Category) : CategorySet :=
  cs.foldr (fun c s => (singleton c).union s) empty

/-- Whether the bit of `c` is set. -/
def accepts (s : CategorySet) (c : Category) : Bool := s.bits.getLsbD c.position

/-- The categories of a set, in order. -/
def categories (s : CategorySet) : List Category := Category.all.filter s.accepts

/-- The bits that name a category. -/
def named : CategorySet := ⟨0x3fff⟩

/-- The literal categories. -/
def literals : CategorySet := ⟨0x0007⟩

/-- The categories of nodes. -/
def nodes : CategorySet := ⟨0x3ff8⟩

/-- The one category of a set with exactly one bit. -/
def single? (s : CategorySet) : Option Category :=
  Category.all.find? fun c => singleton c = s

/-- The names of the categories, separated by bars, or `()` if there is none. -/
def display (s : CategorySet) : String :=
  match s.categories with
  | [] => "()"
  | cs => " | ".intercalate (cs.map Category.name)

/-- The stored form of a set: the constants of its categories and, last, the number
formed by its bits without a name. -/
def stored (s : CategorySet) : String :=
  let unnamed := (s.bits &&& ~~~named.bits).toNat
  let number := if unnamed = 0 then [] else ["0x" ++ String.ofList (Nat.toDigits 16 unnamed)]
  " | ".intercalate (s.categories.map Category.constant ++ number)

@[simp]
theorem accepts_inter (s t : CategorySet) (c : Category) :
  (s.inter t).accepts c = (s.accepts c && t.accepts c)
  := by
  simp [accepts, inter]

@[simp]
theorem accepts_union (s t : CategorySet) (c : Category) :
  (s.union t).accepts c = (s.accepts c || t.accepts c)
  := by
  simp [accepts, union]

@[simp]
theorem accepts_singleton (c d : Category) :
  (singleton c).accepts d = decide (c = d)
  := by
  cases c <;> cases d <;> decide

theorem mem_categories {s : CategorySet} {c : Category} :
  c ∈ s.categories ↔ s.accepts c = true
  := by
  simp [categories, Category.mem_all]

@[simp]
theorem single?_singleton (c : Category) :
  (singleton c).single? = some c
  := by
  cases c <;> decide

end CategorySet

end BladeStyle
