import BladeStyle.Proofs.Parsing.Unlimited

/-!
# What fails and where

A text that is no style of a registry fails for one reason.  It names none, or the number of its
arguments is not one that the template takes, whatever they are, or else there is a first argument
that fails: it is no style by itself, or its slot does not accept the category of this style.
The arguments before it are bound.  A literal never fails.

Failures are wrapped up on the way out, up to the argument of the outermost node.  That a text is
too deep is never wrapped up.
-/

namespace BladeStyle

/-! ### One argument -/

namespace Param

/-- Every integer can be stored in a literal slot. -/
theorem exists_store_of_isLiteral {p : Param Style} (h : p.isLiteral = true) (n : Int) :
  ∃ q, p.store (.int n) = .ok q
  := by
  obtain ⟨name, kind, slot, comment⟩ := p
  cases slot with
  | number _ | bits _ | bool _ => exact ⟨_, rfl⟩
  | empty | child _ => cases h

/-- Only a style of another category cannot be stored in a composite slot. -/
theorem fill_eq_error {p : Param Style} (hcomposite : p.isLiteral = false) {c : Style}
    {error : BindError} (h : p.fill c = .error error) :
  p.kind.categories.accepts c.category = false
    ∧ error = .categoryMismatch p.name p.kind.categories c.category
  := by
  rw [fill, hcomposite, if_neg Bool.false_ne_true] at h
  split at h
  · cases h
  · next haccepts => exact ⟨eq_false_of_ne_true haccepts, (Except.error.inj h).symm⟩

end Param

namespace Style

/-- Whether a template refuses this number of arguments: they are fewer than it declares
parameters, or more and the last one is not variadic. -/
def Refuses (template : Style) (given : Nat) : Prop :=
  given < template.params.length ∨ template.params.length < given ∧ ¬ template.isVariadic = true

/-- A template that does not refuse some arguments declares a parameter. -/
theorem params_length_pos {template : Style} {given : Nat} (h : ¬ template.Refuses given)
    (hgiven : 0 < given) :
  0 < template.params.length
  := by
  obtain ⟨-, hmax | hvariadic⟩ := Registry.arity_of_not h
  · exact Nat.lt_of_lt_of_le hgiven hmax
  · obtain ⟨tail, hlast, -⟩ := exists_of_isVariadic hvariadic
    apply List.length_pos_of_mem (List.mem_of_getLast? hlast)

end Style

namespace Registry

section Arguments

variable {parseChild : Source → Except ParseError Style} {parent : String}

/-- The failure of an argument at a position, counted from one, for a slot. -/
inductive Fails (parseChild : Source → Except ParseError Style) (parent : String)
    (position : Nat) (slot : Param Style) (argument : Source) : ParseError → Prop where
  | tooDeep {limit : Nat} (hcomposite : slot.isLiteral = false)
      (h : parseChild argument = .error (.tooDeep limit)) :
      Fails parseChild parent position slot argument (.tooDeep limit)
  | nested {source : ParseError} (hcomposite : slot.isLiteral = false)
      (h : parseChild argument = .error source) (hne : ∀ limit, source ≠ .tooDeep limit) :
      Fails parseChild parent position slot argument (.nested parent position source)
  | bind {c : Style} (hcomposite : slot.isLiteral = false) (h : parseChild argument = .ok c)
      (hcategory : slot.kind.categories.accepts c.category = false) :
      Fails parseChild parent position slot argument
        (.bind parent position (.categoryMismatch slot.name slot.kind.categories c.category))

theorem Fails.inArgument {position : Nat} {slot : Param Style} {argument : Source}
    {source : ParseError} (hcomposite : slot.isLiteral = false)
    (h : parseChild argument = .error source) :
  Fails parseChild parent position slot argument (source.inArgument parent position)
  := by
  cases source with
  | tooDeep limit => exact .tooDeep hcomposite h
  | malformed _ | unknownStyle _ | arity _ _ _ _ | nested _ _ _ | bind _ _ _ =>
    exact .nested hcomposite h nofun

theorem Fails.namesStyle {position : Nat} {slot : Param Style} {argument : Source}
    {error : ParseError} (h : Fails parseChild parent position slot argument error) :
  error.namesStyle = true
  := by
  cases h <;> rfl

theorem Fails.ne_arity {position : Nat} {slot : Param Style} {argument : Source}
    {error : ParseError} (h : Fails parseChild parent position slot argument error) (name : String)
    (expected given : Nat) (variadic : Bool) :
  error ≠ .arity name expected given variadic
  := by
  cases h <;> nofun

theorem fails_of_read_eq_error {index : Nat} {slot : Param Style} {argument : Source}
    {error : ParseError} (h : Param.read parseChild parent index slot argument = .error error) :
  Fails parseChild parent (index + 1) slot argument error
  := by
  cases hslot : slot.isLiteral with
  | true =>
    obtain ⟨q, hq⟩ := Param.exists_store_of_isLiteral hslot (Literal.read argument.literal)
    simp only [Param.read, argumentValue, hslot, if_true, hq] at h
    cases h
  | false =>
    simp only [Param.read, argumentValue, hslot, Bool.false_eq_true, if_false] at h
    cases hchild : parseChild argument with
    | error source =>
      rw [hchild] at h
      obtain rfl := Except.error.inj h
      apply Fails.inArgument hslot hchild
    | ok c =>
      simp only [hchild, Param.store] at h
      split at h
      · next e hfill =>
        obtain ⟨hcategory, rfl⟩ := Param.fill_eq_error hslot hfill
        obtain rfl := Except.error.inj h
        exact .bind hslot hchild hcategory
      · cases h

/-- An argument can be bound to a slot: it has a value, which the slot stores. -/
def Binds (parseChild : Source → Except ParseError Style) (parent : String) (index : Nat)
    (slot : Param Style) (argument : Source) : Prop :=
  ∃ value p, argumentValue parseChild parent index slot.isLiteral argument = .ok value
    ∧ slot.store value = .ok p

/-- The argument at position `i` fails for its slot, and those before it are bound. -/
structure FailsFirst (parseChild : Source → Except ParseError Style) (parent : String)
    (index : Nat) (slots : List (Param Style)) (arguments : List Source) (i : Nat)
    (error : ParseError) : Prop where
  before : ∀ j < i, ∃ slot argument, slots[j]? = some slot ∧ arguments[j]? = some argument
    ∧ Binds parseChild parent (index + j) slot argument
  here : ∃ slot argument, slots[i]? = some slot ∧ arguments[i]? = some argument
    ∧ Fails parseChild parent (index + i + 1) slot argument error

/-- Arguments that are not read have a first one that fails; by induction on the slots. -/
theorem exists_failsFirst_of_readEach_eq_error {index : Nat} {slots : List (Param Style)}
    {arguments : List Source} {error : ParseError}
    (h : Param.readEach parseChild parent index slots arguments = .error error) :
  ∃ i, FailsFirst parseChild parent index slots arguments i error
  := by
  induction slots generalizing index arguments with
  | nil => cases h
  | cons slot slots ih =>
    cases arguments with
    | nil => cases h
    | cons argument arguments =>
      rw [Param.readEach] at h
      split at h
      · next hread =>
        obtain rfl := Except.error.inj h
        refine ⟨0, fun j hj => absurd hj (Nat.not_lt_zero j), slot, argument, rfl, rfl, ?_⟩
        apply fails_of_read_eq_error hread
      · next p hread =>
        obtain ⟨i, hbefore, slot', argument', hslot', hargument', hfails⟩ :=
          ih (eq_error_of_map h)
        have hindex : index + 1 + i = index + (i + 1) := Nat.add_right_comm index 1 i
        rw [hindex] at hfails
        refine ⟨i + 1, ?_, slot', argument', hslot', hargument', hfails⟩
        intro j hj
        cases j with
        | zero =>
          obtain ⟨value, q, hvalue, hq, -⟩ := Param.exists_of_read_eq_ok hread
          exact ⟨slot, argument, rfl, rfl, value, q, hvalue, hq⟩
        | succ j =>
          obtain ⟨slot'', argument'', hbinds⟩ := hbefore j (Nat.lt_of_succ_lt_succ hj)
          rw [Nat.add_right_comm] at hbinds
          exact ⟨slot'', argument'', hbinds⟩

end Arguments

/-! ### One node -/

section Node

variable {r : Registry} {parseChild : Source → Except ParseError Style} {x : Expression}

/-- What is wrong with an expression: its name, the number of its arguments, or the first argument
that fails. -/
inductive Fault (r : Registry) (parseChild : Source → Except ParseError Style) (x : Expression) :
    ParseError → Prop where
  | name (h : r.template? x.name = none) : Fault r parseChild x (.unknownStyle x.name)
  | arity {template : Style} (ht : r.template? x.name = some template)
      (h : template.Refuses x.arguments.length) :
      Fault r parseChild x
        (.arity x.name template.params.length x.arguments.length template.isVariadic)
  | argument {template : Style} {i : Nat} {error : ParseError}
      (ht : r.template? x.name = some template) (h : ¬ template.Refuses x.arguments.length)
      (hfirst : FailsFirst parseChild x.name 0 (template.slots x.arguments.length) x.arguments i
        error) :
      Fault r parseChild x error

theorem fault_of_parseNode_eq_error {error : ParseError}
    (h : r.parseNode parseChild x = .error error) :
  Fault r parseChild x error
  := by
  rw [parseNode_eq] at h
  cases ht : r.template? x.name with
  | none =>
    rw [ht] at h
    obtain rfl := Except.error.inj h
    exact .name ht
  | some template =>
    simp only [ht] at h
    split at h
    · next hrefuses =>
      obtain rfl := Except.error.inj h
      exact .arity ht hrefuses
    · next hrefuses =>
      obtain ⟨i, hfirst⟩ := exists_failsFirst_of_readEach_eq_error (eq_error_of_map h)
      exact .argument ht hrefuses hfirst

end Node

end Registry

/-! ### Wrapped failures -/

namespace ParseError

theorem innermost_ne_nested (error : ParseError) (parent : String) (index : Nat)
    (source : ParseError) :
  error.innermost ≠ .nested parent index source
  := by
  induction error with
  | nested parent' index' source' ih => exact ih
  | malformed _ | unknownStyle _ | arity _ _ _ _ | bind _ _ _ | tooDeep _ => nofun

/-- The innermost failure is a mismatch of categories if it is about a value, and it is not wrapped
up if it is about the depth. -/
structure Regular (error : ParseError) : Prop where
  bind : ∀ parent index source, error.innermost = .bind parent index source →
    ∃ param expected found, source = .categoryMismatch param expected found
  tooDeep : ∀ limit, error.innermost = .tooDeep limit → error = .tooDeep levelLimit

/-- A failure of a node that is none of an argument. -/
def ofNode : ParseError → Bool
  | malformed _ | unknownStyle _ | arity .. => true
  | nested .. | bind .. | tooDeep _ => false

theorem regular_of_ofNode {error : ParseError} (h : error.ofNode = true) :
  error.Regular
  := by
  cases error with
  | malformed _ | unknownStyle _ | arity _ _ _ _ =>
    constructor
    · intro parent index source heq
      cases heq
    · intro limit heq
      cases heq
  | nested _ _ _ | bind _ _ _ | tooDeep _ => cases h

end ParseError

namespace Registry

variable {r : Registry}

/-- The failure of an argument is regular if those of children are. -/
theorem Fails.regular {parseChild : Source → Except ParseError Style} {parent : String}
    {position : Nat} {slot : Param Style} {argument : Source} {error : ParseError}
    (h : Fails parseChild parent position slot argument error)
    (hchild : ∀ source, parseChild argument = .error source → source.Regular) :
  error.Regular
  := by
  cases h with
  | tooDeep hcomposite h => exact hchild _ h
  | nested hcomposite h hne =>
    obtain ⟨hbind, htooDeep⟩ := hchild _ h
    exact ⟨hbind, fun limit hlimit => absurd (htooDeep limit hlimit) (hne _)⟩
  | bind hcomposite h hcategory =>
    constructor
    · intro parent' index source heq
      obtain ⟨-, -, rfl⟩ := ParseError.bind.inj heq
      exact ⟨_, _, _, rfl⟩
    · intro limit heq
      cases heq

/-- All failures are regular; by induction on the levels. -/
theorem regular_of_parseWithin_eq_error {levels : Nat} {s : Source} {error : ParseError}
    (h : r.parseWithin levels s = .error error) :
  error.Regular
  := by
  induction levels generalizing s error with
  | zero =>
    obtain rfl := Except.error.inj h
    constructor
    · intro parent index source heq
      cases heq
    · intro limit heq
      rfl
  | succ levels ih =>
    rw [parseWithin] at h
    split at h
    · obtain rfl := Except.error.inj h
      apply ParseError.regular_of_ofNode rfl
    · cases fault_of_parseNode_eq_error h with
      | name | arity => apply ParseError.regular_of_ofNode rfl
      | argument ht hrefuses hfirst =>
        obtain ⟨slot, argument, -, -, hfails⟩ := hfirst.here
        exact hfails.regular fun source hsource => ih hsource

/-- The failure of a text is a fault of its expression, of whose children each is parsed with one
level less. -/
theorem fault_of_parse_eq_error {text : String} {error : ParseError}
    (h : r.parse text = .error error) :
  (∃ e, Expression.ofText? text = .error e ∧ error = .malformed e)
    ∨ ∃ x, Expression.ofText? text = .ok x
      ∧ Fault r (fun argument => r.parseWithin levelLimit argument) x error
  := by
  rw [parse] at h
  cases hs : Source.ofText? text with
  | error e =>
    rw [hs] at h
    refine Or.inl ⟨e, ?_, (Except.error.inj h).symm⟩
    rw [Expression.ofText?, hs]
    rfl
  | ok s =>
    obtain ⟨hlegible, rfl⟩ := Source.text_of_ofText? hs
    rw [hs] at h
    dsimp only at h
    rw [hlegible.ofText?_expression]
    rw [parseWithin] at h
    split at h
    · next e he => exact Or.inl ⟨e, he, (Except.error.inj h).symm⟩
    · next x hx => exact Or.inr ⟨x, hx, fault_of_parseNode_eq_error h⟩

theorem regular_of_parse_eq_error {text : String} {error : ParseError}
    (h : r.parse text = .error error) :
  error.Regular
  := by
  rw [parse] at h
  split at h
  · obtain rfl := Except.error.inj h
    apply ParseError.regular_of_ofNode rfl
  · exact regular_of_parseWithin_eq_error h

/-- What is said of a text that fails is exact.  It is said to be no style if it is malformed or its
name is not registered.  Otherwise the number of arguments comes first, whatever they are, and then
the first argument that fails: the failure has its position and the name of the style above it,
unless the text is too deep, which is never wrapped up.  A value that cannot be bound is of the
wrong category, and what is innermost in a failure is not wrapped up.  A template that has to take
arguments declares a parameter for them. -/
theorem parse_errors_located (r : Registry) (text : String) :
  (∀ error, r.parse text = .error error →
      (error.namesStyle = false
        ↔ (∃ e, Expression.ofText? text = .error e)
          ∨ ∃ x, Expression.ofText? text = .ok x ∧ r.template? x.name = none)
      ∧ (error.namesStyle = true → ∃ x template, Expression.ofText? text = .ok x
        ∧ r.template? x.name = some template
        ∧ (error = .arity x.name template.params.length x.arguments.length template.isVariadic
          ↔ template.Refuses x.arguments.length)
        ∧ (¬ template.Refuses x.arguments.length → ∃ i,
          FailsFirst (fun argument => r.parseWithin levelLimit argument) x.name 0
            (template.slots x.arguments.length) x.arguments i error))
      ∧ (∀ parent index source, error.innermost = .bind parent index source →
        ∃ param expected found, source = .categoryMismatch param expected found)
      ∧ (∀ parent index source, error.innermost ≠ .nested parent index source)
      ∧ (∀ limit, error.innermost = .tooDeep limit → error = .tooDeep levelLimit))
    ∧ (∀ (x : Expression) template, r.template? x.name = some template →
      ¬ template.Refuses x.arguments.length → x.arguments ≠ [] → 0 < template.params.length)
  := by
  constructor
  · intro error h
    obtain ⟨hbind, htooDeep⟩ := regular_of_parse_eq_error h
    refine ⟨?_, ?_, hbind, error.innermost_ne_nested, htooDeep⟩
    · rcases fault_of_parse_eq_error h with ⟨e, he, rfl⟩ | ⟨x, hx, hfault⟩
      · exact iff_of_true rfl (Or.inl ⟨e, he⟩)
      · have hname : (∃ e, Expression.ofText? text = .error e)
            ∨ (∃ x, Expression.ofText? text = .ok x ∧ r.template? x.name = none)
              ↔ r.template? x.name = none := by
          rw [hx]
          simp
        rw [hname]
        cases hfault with
        | name ht => exact iff_of_true rfl ht
        | arity ht =>
          rw [ht]
          exact iff_of_false nofun nofun
        | argument ht hrefuses hfirst =>
          obtain ⟨slot, argument, -, -, hfails⟩ := hfirst.here
          rw [ht, hfails.namesStyle]
          exact iff_of_false nofun nofun
    · intro hstyle
      rcases fault_of_parse_eq_error h with ⟨e, -, rfl⟩ | ⟨x, hx, hfault⟩
      · cases hstyle
      · cases hfault with
        | name => cases hstyle
        | @arity template ht hrefuses =>
          exact ⟨x, template, hx, ht, iff_of_true rfl hrefuses, absurd hrefuses⟩
        | @argument template i _ ht hrefuses hfirst =>
          obtain ⟨slot, argument, -, -, hfails⟩ := hfirst.here
          refine ⟨x, template, hx, ht, iff_of_false (hfails.ne_arity _ _ _ _) hrefuses, ?_⟩
          exact fun _ => ⟨i, hfirst⟩
  · intro x template _ hrefuses hne
    apply Style.params_length_pos hrefuses (List.length_pos_iff.mpr hne)

/-- In the repeat of a variadic parameter, a colour in place of a function. -/
theorem parse_errors_located_sum :
  Registry.builtin.parse "Sum<Int<1>, Sum<Int<2>, Red>, Int<>>"
      = .error (.nested "Sum" 2
        (.bind "Sum" 2 (.categoryMismatch "Value" (.ofList [.function]) .color)))
    ∧ ∃ x template i, Expression.ofText? "Sum<Int<1>, Sum<Int<2>, Red>, Int<>>" = .ok x
      ∧ Registry.builtin.template? x.name = some template ∧ 0 < template.params.length
      ∧ FailsFirst (fun argument => Registry.builtin.parseWithin levelLimit argument) x.name 0
        (template.slots x.arguments.length) x.arguments i
        (.nested "Sum" 2
          (.bind "Sum" 2 (.categoryMismatch "Value" (.ofList [.function]) .color)))
  := by
  have hparse : Registry.builtin.parse "Sum<Int<1>, Sum<Int<2>, Red>, Int<>>"
      = .error (.nested "Sum" 2
        (.bind "Sum" 2 (.categoryMismatch "Value" (.ofList [.function]) .color))) := by
    decide +kernel
  obtain ⟨herror, hdeclared⟩ :=
    parse_errors_located Registry.builtin "Sum<Int<1>, Sum<Int<2>, Red>, Int<>>"
  obtain ⟨-, hlocated, -⟩ := herror _ hparse
  obtain ⟨x, template, hx, ht, harity, hfirst⟩ := hlocated rfl
  have hrefuses : ¬ template.Refuses x.arguments.length := by
    intro hrefuses
    cases harity.mpr hrefuses
  obtain ⟨i, hfirst⟩ := hfirst hrefuses
  have hne : x.arguments ≠ [] := by
    obtain ⟨slot, argument, -, hargument, -⟩ := hfirst.here
    apply List.ne_nil_of_mem (List.mem_of_getElem? hargument)
  exact ⟨hparse, x, template, i, hx, ht, hdeclared x template ht hrefuses hne, hfirst⟩

end Registry

end BladeStyle
