import BladeStyle.Proofs.Parsing.Slots

/-!
# The children that are parsed

A node hands those of its arguments to the parser of children that are for composite
parameters, from left to right, up to the first failure.  It depends on the parser of children
only through these arguments, and the failures of that parser are the only ones that it passes
on.
-/

namespace BladeStyle

/-! ### Failures of children -/

namespace ParseError

/-- A failure that a node has from one of its children. -/
def ofChild : ParseError → Bool
  | nested .. | tooDeep _ => true
  | _ => false

theorem of_inArgument_eq_nested {parent parent' : String} {index index' : Nat}
    {error source : ParseError}
    (h : error.inArgument parent index = .nested parent' index' source) :
  parent = parent' ∧ index = index' ∧ error = source ∧ ∀ limit, error ≠ .tooDeep limit
  := by
  cases error with
  | tooDeep limit => cases h
  | malformed _ | unknownStyle _ | arity _ _ _ _ | nested _ _ _ | bind _ _ _ =>
    obtain ⟨hparent, hindex, hsource⟩ := ParseError.nested.inj h
    exact ⟨hparent, hindex, hsource, nofun⟩

theorem of_inArgument_eq_tooDeep {parent : String} {index limit : Nat} {error : ParseError}
    (h : error.inArgument parent index = .tooDeep limit) :
  error = .tooDeep limit
  := by
  cases error with
  | tooDeep limit' => exact h
  | malformed _ | unknownStyle _ | arity _ _ _ _ | nested _ _ _ | bind _ _ _ => cases h

end ParseError

namespace Registry

/-! ### Children among arguments -/

/-- An argument that is parsed as a child when arguments are bound from position `index` on: its
parameter is composite, and the arguments before it can be bound. -/
def Attempts (parseChild : Source → Except ParseError Style) (parent : String)
    (declared index : Nat) (s : Style) (arguments : List Source) (argument : Source) : Prop :=
  ∃ before after node, arguments = before ++ argument :: after
    ∧ bindArguments parseChild parent declared index s before = .ok node
    ∧ node.takesLiteral declared (index + before.length) = false

section Attempts

variable {f g : Source → Except ParseError Style} {parent : String} {declared index : Nat}
  {s : Style} {argument : Source} {arguments : List Source}

theorem Attempts.mem (h : Attempts f parent declared index s arguments argument) :
  argument ∈ arguments
  := by
  obtain ⟨before, after, -, rfl, -, -⟩ := h
  apply List.mem_append_right before List.mem_cons_self

/-- The first argument is parsed if its parameter is composite, and another one if the first
can be bound. -/
theorem attempts_cons {first : Source} :
  Attempts f parent declared index s (first :: arguments) argument
    ↔ argument = first ∧ s.takesLiteral declared index = false
      ∨ ∃ node, bindArguments f parent declared index s [first] = .ok node
        ∧ Attempts f parent declared (index + 1) node arguments argument
  := by
  constructor
  · rintro ⟨before, after, node, harguments, hbefore, hcomposite⟩
    cases before with
    | nil =>
      left
      obtain ⟨rfl, -⟩ := List.cons.inj harguments
      obtain rfl := Except.ok.inj hbefore
      exact ⟨rfl, hcomposite⟩
    | cons b before =>
      right
      obtain ⟨rfl, rfl⟩ := List.cons.inj harguments
      rw [← List.singleton_append, bindArguments_append] at hbefore
      split at hbefore
      · cases hbefore
      · next node' hfirst =>
        use node', hfirst, before, after, node, rfl, hbefore
        rwa [List.length_cons, ← Nat.add_assoc, Nat.add_right_comm] at hcomposite
  · rintro (⟨rfl, hcomposite⟩ | ⟨node', hfirst, before, after, node, rfl, hbefore, hcomposite⟩)
    · exact ⟨[], arguments, s, rfl, rfl, hcomposite⟩
    · use first :: before, after, node, rfl
      rw [← List.singleton_append, bindArguments_append, hfirst]
      use hbefore
      rwa [List.length_append, ← Nat.add_assoc]

theorem bindArguments_singleton_congr (h : s.takesLiteral declared index = false →
      f argument = g argument) :
  bindArguments f parent declared index s [argument]
    = bindArguments g parent declared index s [argument]
  := by
  simp only [bindArguments, argumentValue]
  cases hliteral : s.takesLiteral declared index with
  | true => rfl
  | false => rw [h hliteral]

/-- Only the arguments that are parsed as children matter to how children are parsed. -/
theorem bindArguments_congr
    (h : ∀ argument, Attempts g parent declared index s arguments argument →
      f argument = g argument) :
  bindArguments f parent declared index s arguments
    = bindArguments g parent declared index s arguments
  := by
  induction arguments generalizing index s with
  | nil => rfl
  | cons first arguments ih =>
    have hfirst : bindArguments f parent declared index s [first]
        = bindArguments g parent declared index s [first] := by
      apply bindArguments_singleton_congr
      intro hcomposite
      apply h first
      exact attempts_cons.mpr (Or.inl ⟨rfl, hcomposite⟩)
    rw [← List.singleton_append, bindArguments_append, bindArguments_append, hfirst]
    cases hnode : bindArguments g parent declared index s [first] with
    | error e => rfl
    | ok node =>
      apply ih
      intro argument hargument
      apply h argument
      exact attempts_cons.mpr (Or.inr ⟨node, hnode, hargument⟩)

/-- That a child is too deep stops the binding, if the children before it are parsed as they
should be. -/
theorem bindArguments_eq_tooDeep {limit : Nat}
    (h : ∀ argument, Attempts g parent declared index s arguments argument →
      f argument = g argument ∨ f argument = .error (.tooDeep limit))
    (hargument : Attempts g parent declared index s arguments argument)
    (hdeep : f argument = .error (.tooDeep limit)) :
  bindArguments f parent declared index s arguments = .error (.tooDeep limit)
  := by
  induction arguments generalizing index s with
  | nil => cases hargument.mem
  | cons first arguments ih =>
    rw [← List.singleton_append, bindArguments_append]
    by_cases hfirst : s.takesLiteral declared index = false ∧ f first = .error (.tooDeep limit)
    · simp [bindArguments, argumentValue, hfirst, ParseError.inArgument]
    · have hsame : bindArguments f parent declared index s [first]
          = bindArguments g parent declared index s [first] := by
        apply bindArguments_singleton_congr
        intro hcomposite
        apply (h first (attempts_cons.mpr (Or.inl ⟨rfl, hcomposite⟩))).resolve_right
        exact fun hdeep => hfirst ⟨hcomposite, hdeep⟩
      rcases attempts_cons.mp hargument with ⟨rfl, hcomposite⟩ | ⟨node, hnode, hargument⟩
      · exact absurd ⟨hcomposite, hdeep⟩ hfirst
      · rw [hsame, hnode]
        apply ih _ hargument
        intro argument' hargument'
        apply h argument'
        exact attempts_cons.mpr (Or.inr ⟨node, hnode, hargument'⟩)

/-- The failure of a child is that of the argument at its position. -/
theorem exists_of_bindArguments_eq_error {error : ParseError} (hchild : error.ofChild = true)
    (h : bindArguments f parent declared index s arguments = .error error) :
  ∃ i argument source, arguments[i]? = some argument ∧ f argument = .error source
    ∧ error = source.inArgument parent (index + i + 1)
  := by
  induction arguments generalizing index s with
  | nil => cases h
  | cons first arguments ih =>
    simp only [bindArguments, argumentValue] at h
    split at h
    · next hvalue =>
      obtain rfl := Except.error.inj h
      split at hvalue
      · cases hvalue
      · split at hvalue
        · cases hvalue
        · next source hsource =>
          exact ⟨0, first, source, rfl, hsource, (Except.error.inj hvalue).symm⟩
    · split at h
      · obtain rfl := Except.error.inj h
        cases hchild
      · obtain ⟨i, argument, source, hargument, hsource, herror⟩ := ih h
        use i + 1, argument, source, hargument, hsource
        rw [herror]
        congr 1
        omega

end Attempts

/-! ### Children of a node -/

section Node

variable {r : Registry} {f g : Source → Except ParseError Style} {e : Expression}
  {argument : Source}

/-- An argument of an expression that is parsed as a child of its node. -/
def AttemptsChild (r : Registry) (parseChild : Source → Except ParseError Style) (e : Expression)
    (argument : Source) : Prop :=
  ∃ template, r.template? e.name = some template
    ∧ ¬ (e.arguments.length < template.params.length
      ∨ template.params.length < e.arguments.length ∧ ¬ template.isVariadic)
    ∧ Attempts parseChild e.name template.params.length 0 template e.arguments argument

theorem AttemptsChild.mem (h : r.AttemptsChild f e argument) :
  argument ∈ e.arguments
  := by
  obtain ⟨template, -, -, hargument⟩ := h
  apply hargument.mem

theorem parseNode_congr (h : ∀ argument, r.AttemptsChild g e argument → f argument = g argument) :
  r.parseNode f e = r.parseNode g e
  := by
  simp only [parseNode]
  split
  · rfl
  · next template ht =>
    split
    · rfl
    · next harity =>
      rw [bindArguments_congr]
      intro argument hargument
      apply h argument
      use template

theorem parseNode_eq_tooDeep {limit : Nat}
    (h : ∀ argument, r.AttemptsChild g e argument →
      f argument = g argument ∨ f argument = .error (.tooDeep limit))
    (hargument : r.AttemptsChild g e argument) (hdeep : f argument = .error (.tooDeep limit)) :
  r.parseNode f e = .error (.tooDeep limit)
  := by
  obtain ⟨template, ht, harity, hattempt⟩ := hargument
  simp only [parseNode, ht]
  rw [if_neg harity, bindArguments_eq_tooDeep _ hattempt hdeep]
  · rfl
  · intro argument' hargument'
    apply h argument'
    use template

theorem exists_of_parseNode_eq_error {error : ParseError} (hchild : error.ofChild = true)
    (h : r.parseNode f e = .error error) :
  ∃ i argument source, e.arguments[i]? = some argument ∧ f argument = .error source
    ∧ error = source.inArgument e.name (i + 1)
  := by
  simp only [parseNode] at h
  split at h
  · obtain rfl := Except.error.inj h
    cases hchild
  · split at h
    · obtain rfl := Except.error.inj h
      cases hchild
    · cases hbind : bindArguments f e.name _ 0 _ e.arguments with
      | ok t =>
        rw [hbind] at h
        cases h
      | error error' =>
        rw [hbind] at h
        obtain rfl := Except.error.inj h
        simpa using exists_of_bindArguments_eq_error hchild hbind

end Node

end Registry

end BladeStyle
