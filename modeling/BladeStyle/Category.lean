/-!
# Categories

The fourteen categories of style nodes and literal values, in the order that every
listing and every packed form follows.  Number, Bits and Bool are the literal
categories: a slot of one of them holds a value, any other slot holds a child node.
-/

namespace BladeStyle

/-- What a style node or a literal value is. -/
inductive Category where
  | number
  | bits
  | bool
  | wrapper
  | builtin
  | function
  | function3D
  | color
  | layer
  | transition
  | timeFunction
  | effect
  | lockupType
  | argument
  deriving DecidableEq

namespace Category

/-- All categories, by position. -/
def all : List Category :=
  [number, bits, bool, wrapper, builtin, function, function3D, color, layer, transition,
    timeFunction, effect, lockupType, argument]

/-- The place of a category in the order, which is also its bit in a set. -/
def position : Category → Nat
  | number => 0
  | bits => 1
  | bool => 2
  | wrapper => 3
  | builtin => 4
  | function => 5
  | function3D => 6
  | color => 7
  | layer => 8
  | transition => 9
  | timeFunction => 10
  | effect => 11
  | lockupType => 12
  | argument => 13

theorem mem_all (c : Category) :
  c ∈ all
  := by
  cases c <;> simp [all]

theorem position_lt (c : Category) :
  c.position < 14
  := by
  cases c <;> decide

theorem position_injective {c d : Category} (h : c.position = d.position) :
  c = d
  := by
  revert h
  cases c <;> cases d <;> decide

/-- Number, Bits and Bool stand for a value and not for a node. -/
def isLiteral : Category → Bool
  | number | bits | bool => true
  | _ => false

/-- The identifier of a category, used in diagnostics. -/
def name : Category → String
  | number => "Number"
  | bits => "Bits"
  | bool => "Bool"
  | wrapper => "Wrapper"
  | builtin => "Builtin"
  | function => "Function"
  | function3D => "Function3D"
  | color => "Color"
  | layer => "Layer"
  | transition => "Transition"
  | timeFunction => "TimeFunction"
  | effect => "Effect"
  | lockupType => "LockupType"
  | argument => "Argument"

/-- The label of a category in the block editor. -/
def label : Category → String
  | number => "Number"
  | bits => "Bits"
  | bool => "Boolean"
  | wrapper => "Wrapper"
  | builtin => "BuiltIn"
  | function => "Int"
  | function3D => "3D Function"
  | color => "Color"
  | layer => "Layer (Transparent Color)"
  | transition => "Transition"
  | timeFunction => "Time Function"
  | effect => "Effect"
  | lockupType => "LockupType"
  | argument => "Argument"

/-- The constant that names a category where a set is stored as text. -/
def constant : Category → String
  | number => "NUMBER"
  | bits => "BITS"
  | bool => "BOOL"
  | wrapper => "WRAPPER"
  | builtin => "BUILTIN"
  | function => "FUNCTION"
  | function3D => "FUNCTION_3D"
  | color => "COLOR"
  | layer => "LAYER"
  | transition => "TRANSITION"
  | timeFunction => "TIME_FUNCTION"
  | effect => "EFFECT"
  | lockupType => "LOCKUP_TYPE"
  | argument => "ARGUMENT"

/-- The category with the given identifier. -/
def ofName? (name : String) : Option Category :=
  all.find? (·.name == name)

end Category

end BladeStyle
