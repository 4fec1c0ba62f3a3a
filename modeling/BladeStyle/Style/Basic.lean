import BladeStyle.Kind

/-!
# Styles

A style is a node of a blade style expression: a colour, a layer, a transition.  It
has a name, a category and a list of parameters.  A parameter holds a number, sixteen
bits, a truth value or at most one child node in its slot.  `Style.induction` proves a
statement of every style from the statement for its children, and equality of styles
is decidable.
-/

namespace BladeStyle

/-- The contents of a parameter, for children of type `σ`. -/
inductive Slot (σ : Type) where
  | number (value : Int)
  | bits (value : BitVec 16)
  | bool (value : Bool)
  | empty
  | child (style : σ)
  deriving DecidableEq

namespace Slot

variable {σ : Type}

/-- The child in a slot, if there is one. -/
def child? : Slot σ → Option σ
  | child s => some s
  | _ => none

/-- The category of the value that a literal slot holds. -/
def category? : Slot σ → Option Category
  | number _ => some .number
  | bits _ => some .bits
  | bool _ => some .bool
  | empty | child _ => none

/-- Whether a slot holds a value and not a node. -/
def isLiteral (s : Slot σ) : Bool := s.category?.isSome

/-- Whether a slot is meant for a node and holds none. -/
def isEmpty : Slot σ → Bool
  | empty => true
  | _ => false

/-- The slot of the same type with nothing, zero or false in it. -/
def cleared : Slot σ → Slot σ
  | number _ => number 0
  | bits _ => bits 0
  | bool _ => bool false
  | empty | child _ => empty

/-- The slot with `f` applied to its child. -/
def map {τ : Type} (f : σ → τ) : Slot σ → Slot τ
  | number n => number n
  | bits b => bits b
  | bool b => bool b
  | empty => empty
  | child s => child (f s)

@[simp]
theorem child?_eq_some {s : Slot σ} {c : σ} :
  s.child? = some c ↔ s = child c
  := by
  cases s <;> simp [child?]

@[simp]
theorem category?_cleared (s : Slot σ) :
  s.cleared.category? = s.category?
  := by
  cases s <;> rfl

@[simp]
theorem child?_map {τ : Type} (f : σ → τ) (s : Slot σ) :
  (s.map f).child? = s.child?.map f
  := by
  cases s <;> rfl

@[simp]
theorem category?_map {τ : Type} (f : σ → τ) (s : Slot σ) :
  (s.map f).category? = s.category?
  := by
  cases s <;> rfl

end Slot

/-- A parameter of a node, for children of type `σ`.  Its comment is the one written
before a literal value; a child keeps its own. -/
structure Param (σ : Type) where
  name : String
  kind : Kind
  slot : Slot σ
  comment : String
  deriving DecidableEq

namespace Param

variable {σ : Type}

def isLiteral (p : Param σ) : Bool := p.slot.isLiteral

def isVariadic (p : Param σ) : Bool := p.kind.variadic

def child? (p : Param σ) : Option σ := p.slot.child?

/-- The position that a parameter refers back to. -/
def reference? (p : Param σ) : Option Nat := p.kind.reference.map Reference.index

end Param

/-- A node of a blade style expression.  Expressions call it by its `name`, the block
editor shows its `title`, and `declared` is the length of its parameter list without the
repeats of a variadic tail. -/
structure Style where
  name : String
  title : String
  category : Category
  fixedForm : Bool
  params : List (Param Style)
  declared : Nat
  comment : String

namespace Style

/-- The kind of a node: its category and its form. -/
def kind (s : Style) : Kind := { Kind.of s.category with fixedForm := s.fixedForm }

/-- Whether the last parameter may repeat. -/
def isVariadic (s : Style) : Bool :=
  match s.params.getLast? with
  | some p => p.isVariadic
  | none => false

/-- The child in parameter `index`. -/
def child? (s : Style) (index : Nat) : Option Style := s.params[index]?.bind Param.child?

section Induction

variable {motive : Style → Prop}

mutual

private theorem induction_node
    (step : ∀ s : Style, (∀ p ∈ s.params, ∀ c, p.slot = .child c → motive c) → motive s)
    (s : Style) :
  motive s
  := by
  obtain ⟨name, title, category, fixedForm, params, declared, comment⟩ := s
  exact step _ (induction_params step params)

private theorem induction_params
    (step : ∀ s : Style, (∀ p ∈ s.params, ∀ c, p.slot = .child c → motive c) → motive s)
    (params : List (Param Style)) :
  ∀ p ∈ params, ∀ c, p.slot = .child c → motive c
  := by
  match params with
  | [] => simp
  | ⟨_, _, .child s, _⟩ :: rest =>
    have hs := induction_node step s
    have hrest := induction_params step rest
    simp only [List.mem_cons]
    rintro p (rfl | hp) c hc
    · cases hc
      exact hs
    · exact hrest p hp c hc
  | ⟨_, _, .number _, _⟩ :: rest | ⟨_, _, .bits _, _⟩ :: rest | ⟨_, _, .bool _, _⟩ :: rest
  | ⟨_, _, .empty, _⟩ :: rest =>
    have hrest := induction_params step rest
    simp only [List.mem_cons]
    rintro p (rfl | hp) c hc
    · cases hc
    · exact hrest p hp c hc

end

/-- A statement holds of every style if it holds of each one whose children satisfy
it. -/
theorem induction
    (step : ∀ s : Style, (∀ p ∈ s.params, ∀ c, p.slot = .child c → motive c) → motive s)
    (s : Style) :
  motive s
  := induction_node step s

end Induction

mutual

private def decideEq : (s t : Style) → Decidable (s = t)
  | ⟨o, h, c, f, ps, d, m⟩, ⟨o', h', c', f', ps', d', m'⟩ =>
    match decideEqParams ps ps' with
    | isTrue e =>
      decidable_of_iff (o = o' ∧ h = h' ∧ c = c' ∧ f = f' ∧ d = d' ∧ m = m') (by simp [e])
    | isFalse e => isFalse (by simp [e])

private def decideEqParams : (ps qs : List (Param Style)) → Decidable (ps = qs)
  | [], [] => isTrue rfl
  | [], _ :: _ | _ :: _, [] => isFalse (by simp)
  | ⟨n, k, a, m⟩ :: ps, ⟨n', k', a', m'⟩ :: ps' =>
    match decideEqSlot a a', decideEqParams ps ps' with
    | isTrue e, isTrue e' => decidable_of_iff (n = n' ∧ k = k' ∧ m = m') (by simp [e, e'])
    | isFalse e, _ => isFalse (by simp [e])
    | _, isFalse e => isFalse (by simp [e])

private def decideEqSlot : (a b : Slot Style) → Decidable (a = b)
  | .child s, .child t =>
    match decideEq s t with
    | isTrue e => isTrue (by rw [e])
    | isFalse e => isFalse (by simp [e])
  | .number v, .number w => decidable_of_iff (v = w) (by simp)
  | .bits v, .bits w => decidable_of_iff (v = w) (by simp)
  | .bool v, .bool w => decidable_of_iff (v = w) (by simp)
  | .empty, .empty => isTrue rfl
  | .child _, .number _ | .child _, .bits _ | .child _, .bool _ | .child _, .empty
  | .number _, .child _ | .number _, .bits _ | .number _, .bool _ | .number _, .empty
  | .bits _, .child _ | .bits _, .number _ | .bits _, .bool _ | .bits _, .empty
  | .bool _, .child _ | .bool _, .number _ | .bool _, .bits _ | .bool _, .empty
  | .empty, .child _ | .empty, .number _ | .empty, .bits _ | .empty, .bool _ =>
    isFalse (by simp)

end

instance : DecidableEq Style := decideEq

end Style

end BladeStyle
