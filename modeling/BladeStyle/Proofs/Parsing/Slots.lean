import BladeStyle.Proofs.Except
import BladeStyle.Proofs.Style.Slot
import BladeStyle.Registry.Parse

/-!
# Arguments and slots

The arguments of an expression fill the slots of its template one by one: first the
declared parameters, then as many repeats of the variadic tail as are needed.  An argument
meets its slot alone, so that the parameters of a node are read independently of each other.
-/

namespace BladeStyle

/-! ### One argument -/

namespace Param

variable (parseChild : Source → Except ParseError Style) (parent : String)

/-- The parameter with the value and the comment of an argument. -/
def read (index : Nat) (slot : Param Style) (argument : Source) :
    Except ParseError (Param Style) :=
  match Registry.argumentValue parseChild parent index slot.isLiteral argument with
  | .error e => .error e
  | .ok value =>
    match slot.store value with
    | .error e => .error (.bind parent (index + 1) e)
    | .ok p =>
      .ok (if slot.isLiteral ∧ argument.leadingText ≠ [] then
        { p with comment := String.ofList argument.leadingText } else p)

/-- What is read is a stored value, at most with another comment. -/
theorem exists_of_read_eq_ok {parseChild : Source → Except ParseError Style} {parent : String}
    {index : Nat} {slot p : Param Style} {argument : Source}
    (h : read parseChild parent index slot argument = .ok p) :
  ∃ value q, Registry.argumentValue parseChild parent index slot.isLiteral argument = .ok value
    ∧ slot.store value = .ok q ∧ p = { q with comment := p.comment }
  := by
  simp only [read] at h
  split at h
  · cases h
  · next value hvalue =>
    split at h
    · cases h
    · next q hq =>
      obtain rfl := Except.ok.inj h
      refine ⟨value, q, hvalue, hq, ?_⟩
      split <;> rfl

theorem sameSlot_read {parseChild : Source → Except ParseError Style} {parent : String}
    {index : Nat} {slot p : Param Style} {argument : Source}
    (h : read parseChild parent index slot argument = .ok p) :
  SameSlot p slot
  := by
  obtain ⟨value, q, -, hstore, heq⟩ := exists_of_read_eq_ok h
  have hsame := (store_eq_ok hstore).1
  rw [heq]
  exact ⟨hsame.name, hsame.kind, hsame.category?⟩

/-- The parameters that the arguments from position `index` on make of their slots. -/
def readEach (index : Nat) : List (Param Style) → List Source →
    Except ParseError (List (Param Style))
  | slot :: slots, argument :: arguments =>
    match read parseChild parent index slot argument with
    | .error e => .error e
    | .ok p => (readEach (index + 1) slots arguments).map (p :: ·)
  | _, _ => .ok []

theorem readEach_cons_eq_ok {parseChild : Source → Except ParseError Style} {parent : String}
    {index : Nat} {slot : Param Style} {slots ps : List (Param Style)} {argument : Source}
    {arguments : List Source}
    (h : readEach parseChild parent index (slot :: slots) (argument :: arguments) = .ok ps) :
  ∃ q qs, read parseChild parent index slot argument = .ok q
    ∧ readEach parseChild parent (index + 1) slots arguments = .ok qs ∧ ps = q :: qs
  := by
  rw [readEach] at h
  split at h
  · cases h
  · next q hq =>
    obtain ⟨qs, hqs, rfl⟩ := exists_of_map_eq_ok h
    use q, qs

/-- Every parameter that is read has a slot and an argument of its own. -/
theorem exists_of_mem_readEach {parseChild : Source → Except ParseError Style} {parent : String}
    {index : Nat} {slots ps : List (Param Style)} {arguments : List Source}
    (h : readEach parseChild parent index slots arguments = .ok ps)
    {p : Param Style} (hp : p ∈ ps) :
  ∃ i, ∃ slot ∈ slots, ∃ argument, read parseChild parent i slot argument = .ok p
  := by
  induction slots generalizing index arguments ps with
  | nil =>
    obtain rfl : [] = ps := by simpa [readEach] using h
    cases hp
  | cons slot slots ih =>
    cases arguments with
    | nil =>
      obtain rfl := Except.ok.inj h
      cases hp
    | cons argument arguments =>
      obtain ⟨q, qs, hq, hqs, rfl⟩ := readEach_cons_eq_ok h
      rcases List.mem_cons.mp hp with rfl | hp
      · exact ⟨index, slot, List.mem_cons_self, argument, hq⟩
      · obtain ⟨i, slot', hslot', argument', hread⟩ := ih hqs hp
        exact ⟨i, slot', List.mem_cons_of_mem slot hslot', argument', hread⟩

/-- Every parameter that is read is read from the argument at its position. -/
theorem exists_read_of_mem_zip {parseChild : Source → Except ParseError Style} {parent : String}
    {index : Nat} {slots ps : List (Param Style)} {arguments : List Source}
    (h : readEach parseChild parent index slots arguments = .ok ps)
    {argument : Source} {p : Param Style} (hp : (argument, p) ∈ arguments.zip ps) :
  ∃ i, ∃ slot ∈ slots, read parseChild parent i slot argument = .ok p
  := by
  induction slots generalizing index arguments ps with
  | nil =>
    obtain rfl : [] = ps := by simpa [readEach] using h
    simp at hp
  | cons slot slots ih =>
    cases arguments with
    | nil => cases hp
    | cons argument' arguments =>
      obtain ⟨q, qs, hq, hqs, rfl⟩ := readEach_cons_eq_ok h
      rcases List.mem_cons.mp hp with heq | hp
      · obtain ⟨rfl, rfl⟩ := Prod.mk.inj heq
        exact ⟨index, slot, List.mem_cons_self, hq⟩
      · obtain ⟨i, slot', hslot', hread⟩ := ih hqs hp
        exact ⟨i, slot', List.mem_cons_of_mem slot hslot', hread⟩

theorem sameSlot_readEach {parseChild : Source → Except ParseError Style} {parent : String}
    {index : Nat} {slots ps : List (Param Style)} {arguments : List Source}
    (h : readEach parseChild parent index slots arguments = .ok ps)
    (hlength : arguments.length = slots.length) :
  List.Forall₂ SameSlot ps slots
  := by
  induction slots generalizing index arguments ps with
  | nil =>
    obtain rfl := List.length_eq_zero_iff.mp hlength
    obtain rfl := Except.ok.inj h
    apply List.Forall₂.nil
  | cons slot slots ih =>
    obtain ⟨argument, arguments, rfl⟩ := List.exists_cons_of_length_eq_add_one hlength
    obtain ⟨q, qs, hq, hqs, rfl⟩ := readEach_cons_eq_ok h
    apply List.Forall₂.cons (sameSlot_read hq)
    apply ih hqs
    simpa using hlength

theorem readEach_append (index : Nat) {slots : List (Param Style)} {arguments : List Source}
    (h : arguments.length = slots.length) (slots' : List (Param Style))
    (arguments' : List Source) :
  readEach parseChild parent index (slots ++ slots') (arguments ++ arguments')
    = match readEach parseChild parent index slots arguments with
      | .error e => .error e
      | .ok ps =>
        (readEach parseChild parent (index + slots.length) slots' arguments').map (ps ++ ·)
  := by
  induction slots generalizing index arguments with
  | nil =>
    obtain rfl := List.length_eq_zero_iff.mp h
    simp only [List.nil_append, List.length_nil, Nat.add_zero, readEach]
    cases readEach parseChild parent index slots' arguments' <;> rfl
  | cons slot slots ih =>
    obtain ⟨argument, arguments, rfl⟩ := List.exists_cons_of_length_eq_add_one h
    have hlength : arguments.length = slots.length := by simpa using h
    simp only [List.cons_append, readEach, ih (index + 1) hlength]
    cases read parseChild parent index slot argument with
    | error e => rfl
    | ok p =>
      cases readEach parseChild parent (index + 1) slots arguments with
      | error e => rfl
      | ok ps =>
        have hindex : index + 1 + slots.length = index + (slots.length + 1) := by omega
        simp only [List.length_cons, hindex]
        cases readEach parseChild parent (index + (slots.length + 1)) slots' arguments' <;> rfl

end Param

namespace Style

theorem modify_length_append {α : Type} (f : α → α) (xs : List α) (x : α) (ys : List α) :
  (xs ++ x :: ys).modify xs.length f = xs ++ f x :: ys
  := by
  induction xs with
  | nil => rfl
  | cons a xs ih => simp [ih]

/-- An argument for a declared parameter is stored in its slot. -/
theorem bindArgument_declared {declared : Nat} {s : Style} {slot : Param Style}
    {before after : List (Param Style)} (hs : s.params = before ++ slot :: after)
    (hlt : before.length < declared) (value : Value) :
  s.bindArgument declared before.length value
    = (slot.store value).map fun p => { s with params := before ++ p :: after }
  := by
  have hslot : s.params[before.length]? = some slot := by simp [hs]
  rw [bindArgument, if_pos hlt, bindAt, updateParam, hslot]
  simp [hs]

/-- An argument past the declared parameters is stored in a repeat of the last one. -/
theorem bindArgument_repeat {declared : Nat} {s : Style} {p slot : Param Style}
    (hlast : s.params.getLast? = some p) (hsame : Param.SameSlot p slot)
    (hvariadic : slot.isVariadic = true) (hle : declared ≤ s.params.length) (value : Value) :
  s.bindArgument declared s.params.length value
    = (slot.repeated.store value).map fun q => { s with params := s.params ++ [q] }
  := by
  have hp : p.isVariadic = true := hsame.isVariadic.trans hvariadic
  rw [bindArgument, if_neg (Nat.not_lt.mpr hle), appendRepeat, nextRepeat, hlast]
  simp only [if_pos hp, Param.another_eq, hsame.repeated]

end Style

/-! ### All arguments -/

namespace Registry

variable (parseChild : Source → Except ParseError Style) (parent : String)

theorem bindArguments_append (declared index : Nat) (s : Style)
    (arguments arguments' : List Source) :
  bindArguments parseChild parent declared index s (arguments ++ arguments')
    = match bindArguments parseChild parent declared index s arguments with
      | .error e => .error e
      | .ok t =>
        bindArguments parseChild parent declared (index + arguments.length) t arguments'
  := by
  induction arguments generalizing index s with
  | nil => rfl
  | cons argument arguments ih =>
    have hindex : index + 1 + arguments.length = index + (arguments.length + 1) := by omega
    simp only [List.cons_append, bindArguments, List.length_cons, ih, hindex]
    split
    · rfl
    · split <;> rfl

/-- An argument that meets `slot`, in front of which stand the parameters `before`. -/
theorem bindArguments_cons {declared : Nat} {s : Style} {slot : Param Style}
    {before after : List (Param Style)}
    (hliteral : s.takesLiteral declared before.length = slot.isLiteral)
    (hbind : ∀ value, s.bindArgument declared before.length value
      = (slot.store value).map fun p => { s with params := before ++ p :: after })
    (argument : Source) (arguments : List Source) :
  bindArguments parseChild parent declared before.length s (argument :: arguments)
    = match Param.read parseChild parent before.length slot argument with
      | .error e => .error e
      | .ok p =>
        bindArguments parseChild parent declared (before.length + 1)
          { s with params := before ++ p :: after } arguments
  := by
  simp only [bindArguments, Param.read, hliteral, hbind]
  cases argumentValue parseChild parent before.length slot.isLiteral argument with
  | error e => rfl
  | ok value =>
    dsimp only
    cases slot.store value with
    | error e => rfl
    | ok p =>
      simp only [Except.map, Style.commentParam]
      split <;> simp [Style.modify_length_append]

/-- The declared parameters. -/
theorem bindArguments_declared {s : Style} {done slots : List (Param Style)}
    (hs : s.params = done ++ slots) {arguments : List Source}
    (h : arguments.length = slots.length) :
  bindArguments parseChild parent (done.length + slots.length) done.length s arguments
    = (Param.readEach parseChild parent done.length slots arguments).map fun ps =>
        { s with params := done ++ ps }
  := by
  induction slots generalizing s done arguments with
  | nil =>
    obtain rfl := List.length_eq_zero_iff.mp h
    rw [List.append_nil] at hs
    subst hs
    simp only [bindArguments, Param.readEach, Except.map, List.append_nil]
    cases s
    rfl
  | cons slot slots ih =>
    obtain ⟨argument, arguments, rfl⟩ := List.exists_cons_of_length_eq_add_one h
    have hlength : arguments.length = slots.length := by simpa using h
    have hslot : s.params[done.length]? = some slot := by simp [hs]
    have hliteral : s.takesLiteral (done.length + (slots.length + 1)) done.length
        = slot.isLiteral := by
      rw [Style.takesLiteral, Nat.min_eq_left (by omega), hslot]
      rfl
    have hlt : done.length < done.length + (slots.length + 1) := by omega
    have hbind := Style.bindArgument_declared hs hlt
    rw [List.length_cons, bindArguments_cons _ _ hliteral hbind, Param.readEach]
    cases Param.read parseChild parent done.length slot argument with
    | error e => rfl
    | ok p =>
      have hparams : ({ s with params := done ++ p :: slots } : Style).params
          = (done ++ [p]) ++ slots := by simp
      have hrest := ih hparams hlength
      have hdeclared : done.length + 1 + slots.length = done.length + (slots.length + 1) := by
        omega
      rw [List.length_append, List.length_singleton, hdeclared] at hrest
      simp only [hrest]
      cases Param.readEach parseChild parent (done.length + 1) slots arguments with
      | error e => rfl
      | ok ps => simp [Except.map]

/-- The repeats of the variadic tail, one for every argument past the declared list. -/
theorem bindArguments_repeats (declared : Nat) {s : Style} {p slot : Param Style}
    (hlast : s.params.getLast? = some p) (hsame : Param.SameSlot p slot)
    (hvariadic : slot.isVariadic = true) (hlength : declared ≤ s.params.length)
    (htail : s.params[declared - 1]?.any Param.isLiteral = slot.isLiteral)
    (arguments : List Source) :
  bindArguments parseChild parent declared s.params.length s arguments
    = (Param.readEach parseChild parent s.params.length
        (List.replicate arguments.length slot.repeated) arguments).map fun ps =>
        { s with params := s.params ++ ps }
  := by
  induction arguments generalizing s p with
  | nil =>
    simp only [bindArguments, List.length_nil, List.replicate_zero, Param.readEach, Except.map,
      List.append_nil]
    cases s
    rfl
  | cons argument arguments ih =>
    have hrepeated := (Param.sameSlot_repeated slot).isLiteral
    have hliteral : s.takesLiteral declared s.params.length = slot.repeated.isLiteral := by
      rw [Style.takesLiteral, Nat.min_eq_right (by omega), htail, hrepeated]
    have hbind := Style.bindArgument_repeat hlast hsame hvariadic hlength
    rw [List.length_cons, List.replicate_succ, bindArguments_cons _ _ hliteral hbind,
      Param.readEach]
    cases hread : Param.read parseChild parent s.params.length slot.repeated argument with
    | error e => rfl
    | ok q =>
      have hne : 0 < s.params.length := by
        apply List.length_pos_of_mem
        apply List.mem_of_getLast? hlast
      have hrest := ih (s := { s with params := s.params ++ [q] }) (p := q) (by simp)
        ((Param.sameSlot_read hread).trans (Param.sameSlot_repeated slot))
        (by simp; omega) (by
          rw [← htail, List.getElem?_append_left (by omega)])
      rw [List.length_append, List.length_singleton] at hrest
      simp only [hrest]
      cases Param.readEach parseChild parent (s.params.length + 1)
          (List.replicate arguments.length slot.repeated) arguments with
      | error e => rfl
      | ok ps => simp [Except.map]

/-- As many arguments as a template declares parameters fill these. -/
theorem bindArguments_template {template : Style} {arguments : List Source}
    (h : arguments.length = template.params.length) :
  bindArguments parseChild parent template.params.length 0 template arguments
    = (Param.readEach parseChild parent 0 template.params arguments).map fun ps =>
        { template with params := ps }
  := by
  have hparams : template.params = [] ++ template.params := rfl
  have hdeclared := bindArguments_declared parseChild parent hparams h
  rwa [List.length_nil, Nat.zero_add] at hdeclared

/-- The node of a template, from its slots. -/
theorem bindArguments_eq {template : Style} {arguments : List Source}
    (hmin : template.params.length ≤ arguments.length)
    (hmax : arguments.length ≤ template.params.length ∨ template.isVariadic = true) :
  bindArguments parseChild parent template.params.length 0 template arguments
    = (Param.readEach parseChild parent 0 (template.slots arguments.length) arguments).map
        fun ps => { template with params := ps }
  := by
  rcases hmax with hmax | hvariadic
  · rw [Style.slots_of_le hmax]
    apply bindArguments_template parseChild parent (Nat.le_antisymm hmax hmin)
  · obtain ⟨tail, hlast, htail⟩ := Style.exists_of_isVariadic hvariadic
    have htake : (arguments.take template.params.length).length = template.params.length :=
      List.length_take_of_le hmin
    conv =>
      lhs
      rw [← List.take_append_drop template.params.length arguments, bindArguments_append,
        bindArguments_template _ _ htake, htake, Nat.zero_add]
    conv =>
      rhs
      rw [Style.slots_eq hlast, ← List.take_append_drop template.params.length arguments,
        Param.readEach_append _ _ _ htake, Nat.zero_add]
    cases hread : Param.readEach parseChild parent 0 template.params
        (arguments.take template.params.length) with
    | error e => rfl
    | ok ps =>
      have hsame := Param.sameSlot_readEach hread htake
      have hlength := hsame.length_eq
      obtain ⟨p, hp, hptail⟩ := Param.SameSlot.exists_getLast? hsame hlast
      have hget : ps[template.params.length - 1]? = some p := by
        rw [← hlength, ← List.getLast?_eq_getElem?, hp]
      have hrepeats := bindArguments_repeats parseChild parent template.params.length
        (s := { template with params := ps }) hp hptail htail (by simp [hlength])
        (by simpa [hget] using hptail.isLiteral) (arguments.drop template.params.length)
      simp only [hlength, List.length_drop] at hrepeats
      simp only [Except.map, List.take_append_drop] at hrepeats ⊢
      rw [hrepeats]
      cases Param.readEach parseChild parent template.params.length
          (List.replicate (arguments.length - template.params.length) tail.repeated)
          (arguments.drop template.params.length) with
      | error e => rfl
      | ok qs => rfl

/-- The number of arguments is one that the template can take. -/
theorem arity_of_not {template : Style} {given : Nat}
    (h : ¬ (given < template.params.length
      ∨ template.params.length < given ∧ ¬ template.isVariadic = true)) :
  template.params.length ≤ given
    ∧ (given ≤ template.params.length ∨ template.isVariadic = true)
  := by
  constructor
  · omega
  · by_cases hvariadic : template.isVariadic = true
    · exact Or.inr hvariadic
    · exact Or.inl (Nat.le_of_not_lt fun hlt => h (Or.inr ⟨hlt, hvariadic⟩))

theorem parseNode_eq (r : Registry) (e : Expression) :
  r.parseNode parseChild e
    = match r.template? e.name with
      | none => .error (.unknownStyle e.name)
      | some template =>
        if e.arguments.length < template.params.length
            ∨ template.params.length < e.arguments.length ∧ ¬ template.isVariadic then
          .error (.arity e.name template.params.length e.arguments.length template.isVariadic)
        else
          (Param.readEach parseChild e.name 0 (template.slots e.arguments.length)
            e.arguments).map fun ps =>
              { template with params := ps, comment := String.ofList e.comment }
  := by
  simp only [parseNode]
  cases r.template? e.name with
  | none => rfl
  | some template =>
    dsimp only
    split
    · rfl
    · next harity =>
      obtain ⟨hmin, hmax⟩ := arity_of_not harity
      rw [bindArguments_eq parseChild e.name hmin hmax]
      cases Param.readEach parseChild e.name 0 (template.slots e.arguments.length) e.arguments with
      | error e => rfl
      | ok ps => rfl

/-- A node that is parsed has a template that takes its arguments, and each of them is read into
its slot. -/
theorem exists_readEach_of_parseNode {parseChild : Source → Except ParseError Style} {r : Registry}
    {e : Expression} {t : Style} (h : r.parseNode parseChild e = .ok t) :
  ∃ template ps, r.template? e.name = some template
    ∧ (e.arguments.length ≤ template.params.length ∨ template.isVariadic = true)
    ∧ e.arguments.length = (template.slots e.arguments.length).length
    ∧ Param.readEach parseChild e.name 0 (template.slots e.arguments.length) e.arguments = .ok ps
    ∧ t = { template with params := ps, comment := String.ofList e.comment }
  := by
  rw [parseNode_eq] at h
  split at h
  · cases h
  · next template ht =>
    split at h
    · cases h
    · next harity =>
      obtain ⟨ps, hps, rfl⟩ := exists_of_map_eq_ok h
      obtain ⟨hmin, hmax⟩ := arity_of_not harity
      exact ⟨template, ps, ht, hmax, (Style.length_slots hmin hmax).symm, hps, rfl⟩

end Registry

end BladeStyle
