import BladeStyle.Style.Basic

/-!
# Binding values

Values are bound to parameters by position.  A literal parameter takes an integer, a
composite one takes a style whose category it accepts.  The last parameter of a node
may be variadic: it can then be repeated, and the repeats can be removed again down to
the declared length.  An operation that is refused reports a `BindError`; only
`Style.bindAll`, which binds a whole list, keeps what it bound before the refusal.
-/

namespace BladeStyle

/-- Why a value could not be bound. -/
inductive BindError where
  | indexOutOfRange (style : String) (index length : Nat)
  | notVariadic (style : String)
  | tooManyValues (style : String) (declared given : Nat)
  | required (style param : String)
  | expectedLiteral (param : String) (expected : Category)
  | expectedStyle (param : String)
  | categoryMismatch (param : String) (expected : CategorySet) (found : Category)
  | emptyParam (style param : String)
  deriving DecidableEq

/-- The text shown for an error. -/
def BindError.message : BindError → String
  | indexOutOfRange style index length =>
    s!"{style} has no parameter {index} (it has {length})"
  | notVariadic style => s!"{style} does not take a variable number of parameters"
  | tooManyValues style declared given =>
    s!"too many parameters for {style} (expected {declared}, got {given})"
  | required style param =>
    s!"parameter \"{param}\" is required and cannot be removed from {style}"
  | expectedLiteral param expected =>
    s!"parameter \"{param}\" expects a {expected.name} literal, got a style"
  | expectedStyle param => s!"parameter \"{param}\" expects a style, got a literal"
  | categoryMismatch param expected found =>
    s!"parameter \"{param}\" accepts {expected.display}, got {found.name}"
  | emptyParam style param => s!"empty parameter \"{param}\" in {style}"

/-- A value for a parameter. -/
inductive Value where
  | int (value : Int)
  | style (style : Style)
  deriving DecidableEq

/-- The least value of a Number slot. -/
def leastNumber : Int := -32768

/-- The greatest value of a Number slot. -/
def greatestNumber : Int := 32767

/-- The nearest value that a Number slot can hold. -/
def nearestNumber (value : Int) : Int := max leastNumber (min value greatestNumber)

theorem nearestNumber_mem (value : Int) :
  leastNumber ≤ nearestNumber value ∧ nearestNumber value ≤ greatestNumber
  := by
  simp only [nearestNumber, leastNumber, greatestNumber]
  omega

theorem nearestNumber_of_mem {value : Int} (hmin : leastNumber ≤ value)
    (hmax : value ≤ greatestNumber) :
  nearestNumber value = value
  := by
  simp only [nearestNumber, leastNumber, greatestNumber] at *
  omega

/-- The low sixteen bits of an integer in two's complement. -/
def lowBits (value : Int) : BitVec 16 := BitVec.ofInt 16 value

namespace Param

/-- A Number parameter. -/
def ofNumber (name : String) (initial : Int) : Param Style :=
  ⟨name, Kind.of .number, .number (nearestNumber initial), ""⟩

/-- A Bits parameter. -/
def ofBits (name : String) (initial : Int) : Param Style :=
  ⟨name, Kind.of .bits, .bits (lowBits initial), ""⟩

/-- A Bool parameter. -/
def ofBool (name : String) (initial : Bool) : Param Style :=
  ⟨name, Kind.of .bool, .bool initial, ""⟩

/-- A composite parameter that accepts the node categories among `accepts`. -/
def ofStyle (name : String) (accepts : CategorySet) (initial : Option Style) : Param Style :=
  ⟨name, Kind.accepting (accepts.inter CategorySet.nodes),
    match initial with
    | some s => .child s
    | none => .empty, ""⟩

/-- The same parameter as the repeatable tail of a list. -/
def asVariadic (p : Param Style) : Param Style :=
  { p with kind := { p.kind with variadic := true } }

/-- The same parameter with a reference back to the parameter at `index`, counted from
one. -/
def referringTo (p : Param Style) (index : Nat) : Param Style :=
  { p with kind := { p.kind with reference := Reference.capped? index } }

/-- The error of a value of the wrong type. -/
def mismatch (p : Param Style) : BindError :=
  match p.slot.category? with
  | some c => .expectedLiteral p.name c
  | none => .expectedStyle p.name

/-- Stores the nearest value of a Number slot. -/
def storeNumber (p : Param Style) (value : Int) : Except BindError (Param Style) :=
  match p.slot with
  | .number _ => .ok { p with slot := .number (nearestNumber value) }
  | _ => .error p.mismatch

/-- Stores the low sixteen bits. -/
def storeBits (p : Param Style) (value : Int) : Except BindError (Param Style) :=
  match p.slot with
  | .bits _ => .ok { p with slot := .bits (lowBits value) }
  | _ => .error p.mismatch

def storeBool (p : Param Style) (value : Bool) : Except BindError (Param Style) :=
  match p.slot with
  | .bool _ => .ok { p with slot := .bool value }
  | _ => .error p.mismatch

/-- Puts a child into a composite slot, in place of the one it holds. -/
def fill (p : Param Style) (style : Style) : Except BindError (Param Style) :=
  if p.isLiteral then .error p.mismatch
  else if p.kind.categories.accepts style.category then .ok { p with slot := .child style }
  else .error (.categoryMismatch p.name p.kind.categories style.category)

/-- Stores a value as the type of the slot asks; for a Bool slot any integer but zero is
true. -/
def store (p : Param Style) : Value → Except BindError (Param Style)
  | .style style => p.fill style
  | .int value =>
    match p.slot with
    | .number _ => p.storeNumber value
    | .bits _ => p.storeBits value
    | .bool _ => p.storeBool (value ≠ 0)
    | .empty | .child _ => .error (.expectedStyle p.name)

/-- The parameter without its child. -/
def detached (p : Param Style) : Param Style :=
  match p.slot with
  | .child _ => { p with slot := .empty }
  | _ => p

/-- What a parameter holds, if it holds anything. -/
def value? (p : Param Style) : Option Value :=
  match p.slot with
  | .number n => some (.int n)
  | .bits b => some (.int b.toNat)
  | .bool b => some (.int (if b then 1 else 0))
  | .empty => none
  | .child s => some (.style s)

/-- A further parameter of the same name and kind, without a comment, that holds
`value`. -/
def another (p : Param Style) (value : Value) : Except BindError (Param Style) :=
  store { p with slot := p.slot.cleared, comment := "" } value

end Param

namespace Style

/-- The node with the given parameters, all of them declared. -/
def ofParams (name title : String) (category : Category) (params : List (Param Style)) :
    Style :=
  ⟨name, title, category, false, params, params.length, ""⟩

/-- The same node, written without a parameter list. -/
def asFixedForm (s : Style) : Style := { s with fixedForm := true }

/-- Replaces parameter `index` by what `f` makes of it. -/
def updateParam (s : Style) (index : Nat) (f : Param Style → Except BindError (Param Style)) :
    Except BindError Style :=
  match s.params[index]? with
  | none => .error (.indexOutOfRange s.name index s.params.length)
  | some p => (f p).map fun q => { s with params := s.params.set index q }

/-- Binds a value to parameter `index`. -/
def bindAt (s : Style) (index : Nat) (value : Value) : Except BindError Style :=
  s.updateParam index (·.store value)

/-- A repeat of the variadic tail that holds `value`. -/
def nextRepeat (s : Style) (value : Value) : Except BindError (Param Style) :=
  match s.params.getLast? with
  | some p => if p.isVariadic then p.another value else .error (.notVariadic s.name)
  | none => .error (.notVariadic s.name)

/-- Appends a repeat of the variadic tail. -/
def appendRepeat (s : Style) (value : Value) : Except BindError Style :=
  (s.nextRepeat value).map fun p => { s with params := s.params ++ [p] }

/-- Inserts a repeat of the variadic tail at `index`, which has to lie in the variadic
part of the list or at its end. -/
def insertRepeat (s : Style) (index : Nat) (value : Value) : Except BindError Style :=
  if index < s.declared - 1 ∨ s.params.length < index then
    .error (.indexOutOfRange s.name index s.params.length)
  else
    (s.nextRepeat value).map fun p => { s with params := s.params.insertIdx index p }

/-- Removes a repeat; the node never gets shorter than declared.  Also gives the
parameter that was removed. -/
def removeRepeat (s : Style) (index : Nat) : Except BindError (Param Style × Style) :=
  match s.params[index]? with
  | none => .error (.indexOutOfRange s.name index s.params.length)
  | some p =>
    if ¬ p.isVariadic then .error (.notVariadic s.name)
    else if s.params.length ≤ s.declared then .error (.required s.name p.name)
    else .ok (p, { s with params := s.params.eraseIdx index })

/-- Binds values from parameter `index` on, with repeats of the variadic tail past the
end.  Stops at the first refusal and keeps what is bound by then. -/
def bindFrom (s : Style) (index : Nat) : List Value → Style × Except BindError Unit
  | [] => (s, .ok ())
  | value :: values =>
    match if index < s.params.length then s.bindAt index value else s.appendRepeat value with
    | .ok t => t.bindFrom (index + 1) values
    | .error e => (s, .error e)

/-- Binds values to the parameters in order. -/
def bindAll (s : Style) (values : List Value) : Style × Except BindError Unit :=
  if s.params.length < values.length ∧ ¬ s.isVariadic then
    (s, .error (.tooManyValues s.name s.params.length values.length))
  else
    s.bindFrom 0 values

/-- The node with values bound over its defaults, if all of them can be bound. -/
def instantiate (s : Style) (values : List Value) : Except BindError Style :=
  let (t, outcome) := s.bindAll values
  outcome.map fun _ => t

/-- Whether every composite slot of the node itself holds a child. -/
def validate (s : Style) : Except BindError Unit :=
  match s.params.find? (·.slot.isEmpty) with
  | some p => .error (.emptyParam s.name p.name)
  | none => .ok ()

end Style

end BladeStyle
