import BladeStyle.Proofs.Parsing.Failures
import BladeStyle.Proofs.Parsing.Rewriting
import BladeStyle.Proofs.Registry.Form
import BladeStyle.Proofs.RoundTrip

/-!
# Creating a node and parsing it

Values are bound to a template by two loops.  Creating a node goes by the list of parameters, which
grows with every repeat; the parser goes by the declared ones.  Both come to the same: the values
meet the slots of the template one by one.  So what can be created is told by the declared
parameters alone, and a parsed node is the one that is created from the values of its arguments,
apart from the comments that only a text has.
-/

namespace BladeStyle

/-! ### Values and slots -/

namespace Param

variable {p q : Param Style} {value : Value} {slots ps : List (Param Style)} {values : List Value}

/-- Whether a parameter takes a value: an integer if it is a literal, and a style of a category
that it accepts if it is not. -/
def Takes (p : Param Style) : Value → Prop
  | .int _ => p.isLiteral = true
  | .style c => p.isLiteral = false ∧ p.kind.categories.accepts c.category = true

theorem exists_store_iff :
  (∃ q, p.store value = .ok q) ↔ p.Takes value
  := by
  cases value with
  | int n =>
    constructor
    · rintro ⟨q, hq⟩
      obtain ⟨name, kind, slot, comment⟩ := p
      cases slot with
      | number _ | bits _ | bool _ => rfl
      | empty | child _ => cases hq
    · intro h
      apply exists_store_of_isLiteral h
  | style c =>
    constructor
    · rintro ⟨q, hq⟩
      obtain ⟨hliteral, haccepts, -⟩ := fill_eq_ok hq
      exact ⟨hliteral, haccepts⟩
    · rintro ⟨hliteral, haccepts⟩
      exact ⟨_, fill_of_accepts hliteral haccepts⟩

theorem SameSlot.takes_iff (h : SameSlot p q) :
  p.Takes value ↔ q.Takes value
  := by
  cases value <;> simp only [Takes, h.isLiteral, h.kind]

/-- The parameters that values make of their slots.  Slots past the values stay as they are. -/
def storeEach : List (Param Style) → List Value → Except BindError (List (Param Style))
  | slot :: slots, value :: values =>
    match slot.store value with
    | .error e => .error e
    | .ok p => (storeEach slots values).map (p :: ·)
  | slots, _ => .ok slots

theorem storeEach_nil (slots : List (Param Style)) :
  storeEach slots [] = .ok slots
  := by
  cases slots <;> rfl

theorem storeEach_cons_eq_ok {slot : Param Style} :
  storeEach (slot :: slots) (value :: values) = .ok ps
    ↔ ∃ q qs, slot.store value = .ok q ∧ storeEach slots values = .ok qs ∧ ps = q :: qs
  := by
  rw [storeEach]
  cases slot.store value with
  | error e => simp
  | ok q => cases storeEach slots values <;> simp [Except.map, eq_comm]

theorem exists_storeEach_iff :
  (∃ ps, storeEach slots values = .ok ps) ↔ ∀ x ∈ slots.zip values, x.1.Takes x.2
  := by
  induction slots generalizing values with
  | nil => simp [storeEach]
  | cons slot slots ih =>
    cases values with
    | nil => simp [storeEach]
    | cons value values =>
      rw [List.zip_cons_cons, List.forall_mem_cons, ← exists_store_iff, ← ih]
      constructor
      · rintro ⟨ps, hps⟩
        obtain ⟨q, qs, hq, hqs, -⟩ := storeEach_cons_eq_ok.mp hps
        exact ⟨⟨q, hq⟩, ⟨qs, hqs⟩⟩
      · rintro ⟨⟨q, hq⟩, ⟨qs, hqs⟩⟩
        exact ⟨q :: qs, storeEach_cons_eq_ok.mpr ⟨q, qs, hq, hqs, rfl⟩⟩

/-- A slot without a value keeps what is in it. -/
theorem getElem?_storeEach (h : storeEach slots values = .ok ps) {i : Nat}
    (hi : values.length ≤ i) :
  ps[i]? = slots[i]?
  := by
  induction slots generalizing values ps i with
  | nil =>
    obtain rfl := Except.ok.inj h
    rfl
  | cons slot slots ih =>
    cases values with
    | nil =>
      obtain rfl := Except.ok.inj h
      rfl
    | cons value values =>
      obtain ⟨q, qs, -, hqs, rfl⟩ := storeEach_cons_eq_ok.mp h
      cases i with
      | zero => cases hi
      | succ i =>
        rw [List.getElem?_cons_succ, List.getElem?_cons_succ]
        apply ih hqs (Nat.le_of_succ_le_succ hi)

/-- A slot with a value stores it. -/
theorem exists_of_storeEach (h : storeEach slots values = .ok ps) {i : Nat} {slot : Param Style}
    (hslot : slots[i]? = some slot) (hvalue : values[i]? = some value) :
  ∃ p, slot.store value = .ok p ∧ ps[i]? = some p
  := by
  induction slots generalizing values ps i with
  | nil => cases hslot
  | cons slot' slots ih =>
    cases values with
    | nil => cases hvalue
    | cons value' values =>
      obtain ⟨q, qs, hq, hqs, rfl⟩ := storeEach_cons_eq_ok.mp h
      cases i with
      | zero =>
        obtain rfl := Option.some.inj hslot
        obtain rfl := Option.some.inj hvalue
        exact ⟨q, hq, rfl⟩
      | succ i => exact ih hqs hslot hvalue

end Param

/-! ### Creating a node -/

namespace Style

variable {s t : Style} {values : List Value}

/-- The node that was bound, if nothing was refused. -/
def settled (bound : Style × Except BindError Unit) : Except BindError Style :=
  bound.2.map fun _ => bound.1

theorem settled_bindFrom_cons (s : Style) (index : Nat) (value : Value) (values : List Value) :
  settled (s.bindFrom index (value :: values))
    = match s.bindArgument s.params.length index value with
      | .error e => .error e
      | .ok t => settled (t.bindFrom (index + 1) values)
  := by
  rw [bindFrom, bindArgument]
  split <;> split <;> simp_all [settled, Except.map]

/-- The value after the parameters `done` meets the slot there, and the others meet the rest. -/
theorem settled_bindFrom_slot {done slots rest : List (Param Style)} {slot : Param Style}
    {value : Value}
    (hbind : s.bindArgument s.params.length done.length value
      = (slot.store value).map fun q => { s with params := done ++ q :: slots })
    (hrest : ∀ q, slot.store value = .ok q →
      settled (bindFrom { s with params := done ++ q :: slots } (done ++ [q]).length values)
        = (Param.storeEach rest values).map fun ps => { s with params := (done ++ [q]) ++ ps }) :
  settled (s.bindFrom done.length (value :: values))
    = (Param.storeEach (slot :: rest) (value :: values)).map fun ps =>
        { s with params := done ++ ps }
  := by
  rw [settled_bindFrom_cons, hbind, Param.storeEach]
  cases hq : slot.store value with
  | error e => rfl
  | ok q =>
    have hq' := hrest q hq
    rw [List.length_append, List.length_singleton] at hq'
    simp only [Except.map, hq']
    cases Param.storeEach rest values with
    | error e => rfl
    | ok ps => simp

/-- Values from some position on meet the slots that are left and then repeats of the tail; by
induction on the values. -/
theorem settled_bindFrom {done slots : List (Param Style)} (hs : s.params = done ++ slots)
    {p tail : Param Style} (hlast : s.params.getLast? = some p) (hsame : p.SameSlot tail)
    (hmax : values.length ≤ slots.length ∨ tail.isVariadic = true) :
  settled (s.bindFrom done.length values)
    = (Param.storeEach
        (slots ++ List.replicate (values.length - slots.length) tail.repeated) values).map
        fun ps => { s with params := done ++ ps }
  := by
  induction values generalizing s done slots p with
  | nil =>
    rw [List.length_nil, Nat.zero_sub, List.replicate_zero, List.append_nil, Param.storeEach_nil]
    exact congrArg Except.ok (withParams_eq_self hs.symm).symm
  | cons value values ih =>
    cases slots with
    | nil =>
      have hvariadic : tail.isVariadic = true := by
        apply hmax.resolve_left
        simp
      rw [List.append_nil] at hs
      subst hs
      rw [List.nil_append, List.length_nil, List.length_cons, Nat.sub_zero, List.replicate_succ]
      apply settled_bindFrom_slot (bindArgument_repeat hlast hsame hvariadic (Nat.le_refl _) value)
      intro q hq
      apply ih (List.append_nil _).symm List.getLast?_concat _ (Or.inr hvariadic)
      apply (Param.store_eq_ok hq).1.trans (Param.sameSlot_repeated tail)
    | cons slot slots =>
      have hlt : done.length < s.params.length := by
        rw [hs, List.length_append, List.length_cons]
        omega
      rw [List.length_cons, List.length_cons, Nat.add_sub_add_right, List.cons_append]
      apply settled_bindFrom_slot (bindArgument_declared hs hlt value)
      intro q hq
      have halike : List.Forall₂ Param.SameSlot (done ++ q :: slots) s.params := by
        rw [hs]
        have hrefl : ∀ ps : List (Param Style), List.Forall₂ Param.SameSlot ps ps :=
          fun ps => List.forall₂_same.mpr fun p _ => Param.SameSlot.refl p
        exact List.rel_append (hrefl done) (.cons (Param.store_eq_ok hq).1 (hrefl slots))
      obtain ⟨p', hlast', hsame'⟩ := Param.SameSlot.exists_getLast? halike hlast
      apply ih (List.append_cons done q slots) hlast' (hsame'.trans hsame)
      simpa using hmax

/-- Creating a node stores the values in the slots of the template, one by one. -/
theorem instantiate_eq (s : Style) (values : List Value) :
  s.instantiate values
    = if s.params.length < values.length ∧ ¬ s.isVariadic then
        .error (.tooManyValues s.name s.params.length values.length)
      else (Param.storeEach (s.slots values.length) values).map fun params => { s with params }
  := by
  change settled (s.bindAll values) = _
  rw [bindAll]
  split
  · rfl
  · next hmax =>
    have hmax : values.length ≤ s.params.length ∨ s.isVariadic = true := by
      by_cases hvariadic : s.isVariadic = true
      · exact Or.inr hvariadic
      · exact Or.inl (Nat.le_of_not_lt fun hlt => hmax ⟨hlt, hvariadic⟩)
    cases hlast : s.params.getLast? with
    | none =>
      have hvalues : values = [] := by
        simpa [isVariadic, hlast, List.getLast?_eq_none_iff.mp hlast] using hmax
      rw [hvalues, Param.storeEach_nil, slots, hlast]
      exact congrArg Except.ok (withParams_eq_self (List.getLast?_eq_none_iff.mp hlast).symm).symm
    | some tail =>
      rw [slots_eq hlast]
      apply settled_bindFrom (List.nil_append s.params).symm hlast (Param.SameSlot.refl tail)
      simpa only [isVariadic, hlast] using hmax

theorem instantiate_eq_ok :
  s.instantiate values = .ok t
    ↔ (values.length ≤ s.params.length ∨ s.isVariadic = true)
      ∧ ∃ ps, Param.storeEach (s.slots values.length) values = .ok ps ∧ t = { s with params := ps }
  := by
  have hmany : (s.params.length < values.length ∧ ¬ s.isVariadic = true)
      ↔ ¬ (values.length ≤ s.params.length ∨ s.isVariadic = true) := by
    rw [not_or, Nat.not_le]
  rw [instantiate_eq]
  split
  · next h => simp [hmany.mp h]
  · next h =>
    rw [hmany, not_not] at h
    constructor
    · intro hmap
      obtain ⟨ps, hps, rfl⟩ := exists_of_map_eq_ok hmap
      exact ⟨h, ps, hps, rfl⟩
    · rintro ⟨-, ps, hps, rfl⟩
      rw [hps]
      rfl

/-- A slot is like the declared parameter at its position, or like the last one past the end. -/
theorem exists_declared_of_slots {given i : Nat} {slot : Param Style}
    (h : (s.slots given)[i]? = some slot) :
  ∃ p, s.params[min i (s.params.length - 1)]? = some p ∧ slot.SameSlot p
  := by
  obtain ⟨j, p, hp, hsame, hij⟩ := exists_of_getElem?_slots h
  obtain ⟨hj, -⟩ := List.getElem?_eq_some_iff.mp hp
  obtain rfl : j = min i (s.params.length - 1) := by omega
  exact ⟨p, hp, hsame⟩

/-- Past the values there are only declared parameters. -/
theorem getElem?_slots_of_le {given i : Nat} (h : given ≤ i) :
  (s.slots given)[i]? = s.params[i]?
  := by
  cases hlast : s.params.getLast? with
  | none => rw [slots, hlast, List.getLast?_eq_none_iff.mp hlast]
  | some tail =>
    rw [slots_eq hlast, List.getElem?_append]
    split
    · rfl
    · rw [List.getElem?_eq_none (by simp; omega), List.getElem?_eq_none (by omega)]

/-- If there are not too many values, each has a slot. -/
theorem exists_slot_of_value (h : values.length ≤ s.params.length ∨ s.isVariadic = true) {i : Nat}
    {value : Value} (hvalue : values[i]? = some value) :
  ∃ slot, (s.slots values.length)[i]? = some slot
  := by
  obtain ⟨hi, -⟩ := List.getElem?_eq_some_iff.mp hvalue
  have hle : values.length ≤ (s.slots values.length).length := by
    rcases Nat.le_total values.length s.params.length with hmin | hmin
    · rw [slots_of_le hmin]
      exact hmin
    · rw [length_slots hmin h]
  exact ⟨_, List.getElem?_eq_getElem (Nat.lt_of_lt_of_le hi hle)⟩

/-- The values that a node can be created from. -/
theorem exists_instantiate_iff :
  (∃ t, s.instantiate values = .ok t)
    ↔ (values.length ≤ s.params.length ∨ s.isVariadic = true)
      ∧ ∀ i value, values[i]? = some value →
        ∃ p, s.params[min i (s.params.length - 1)]? = some p ∧ p.Takes value
  := by
  have hstored : (∃ t, s.instantiate values = .ok t)
      ↔ (values.length ≤ s.params.length ∨ s.isVariadic = true)
        ∧ ∃ ps, Param.storeEach (s.slots values.length) values = .ok ps := by
    constructor
    · rintro ⟨t, ht⟩
      obtain ⟨hmax, ps, hps, -⟩ := instantiate_eq_ok.mp ht
      exact ⟨hmax, ps, hps⟩
    · rintro ⟨hmax, ps, hps⟩
      exact ⟨_, instantiate_eq_ok.mpr ⟨hmax, ps, hps, rfl⟩⟩
  rw [hstored, Param.exists_storeEach_iff]
  apply and_congr_right
  intro hmax
  constructor
  · intro htakes i value hvalue
    obtain ⟨slot, hslot⟩ := exists_slot_of_value hmax hvalue
    obtain ⟨p, hp, hsame⟩ := exists_declared_of_slots hslot
    have hmem : (slot, value) ∈ (s.slots values.length).zip values :=
      List.mem_of_getElem? (List.getElem?_zip_eq_some.mpr ⟨hslot, hvalue⟩)
    exact ⟨p, hp, hsame.takes_iff.mp (htakes _ hmem)⟩
  · rintro hdeclared ⟨slot, value⟩ hmem
    obtain ⟨i, hi⟩ := List.mem_iff_getElem?.mp hmem
    obtain ⟨hslot, hvalue⟩ := List.getElem?_zip_eq_some.mp hi
    obtain ⟨p, hp, htakes⟩ := hdeclared i value hvalue
    obtain ⟨p', hp', hsame⟩ := exists_declared_of_slots hslot
    obtain rfl := Option.some.inj (hp.symm.trans hp')
    exact hsame.takes_iff.mpr htakes

/-- A created node differs from its template in the parameters that have a value. -/
theorem params_instantiate (h : s.instantiate values = .ok t) :
  t = { s with params := t.params }
    ∧ (∀ i, values.length ≤ i → t.params[i]? = s.params[i]?)
    ∧ ∀ (i : Nat) value, values[i]? = some value → ∃ slot p : Param Style,
      (s.slots values.length)[i]? = some slot ∧ slot.store value = .ok p ∧ t.params[i]? = some p
  := by
  obtain ⟨hmax, ps, hps, rfl⟩ := instantiate_eq_ok.mp h
  refine ⟨rfl, ?_, ?_⟩
  · intro i hi
    rw [Param.getElem?_storeEach hps hi, getElem?_slots_of_le hi]
  · intro i value hvalue
    obtain ⟨slot, hslot⟩ := exists_slot_of_value hmax hvalue
    obtain ⟨p, hp, hget⟩ := Param.exists_of_storeEach hps hslot hvalue
    exact ⟨slot, p, hslot, hp, hget⟩

end Style

/-! ### Parsing a node -/

/-- The parameter without the comment that stands before a literal. -/
def Param.withoutLiteralComment (p : Param Style) : Param Style :=
  if p.isLiteral then { p with comment := "" } else p

/-- What is read is a stored value with the comment of a literal. -/
theorem Param.store_of_read {parseChild : Source → Except ParseError Style} {parent : String}
    {index : Nat} {slot p : Param Style} {argument : Source} (hslot : slot.comment = "")
    (h : read parseChild parent index slot argument = .ok p) :
  ∃ value, Registry.argumentValue parseChild parent index slot.isLiteral argument = .ok value
    ∧ slot.store value = .ok p.withoutLiteralComment
  := by
  obtain ⟨value, q, hvalue, hstore, -⟩ := exists_of_read_eq_ok h
  rw [read_eq _ _ _ hslot, hvalue] at h
  simp only [hstore] at h
  obtain rfl := Except.ok.inj h
  obtain ⟨hsame, hcomment⟩ := store_eq_ok hstore
  rw [hslot] at hcomment
  use value, hvalue
  have hq : { q with comment := "" } = q := by rw [← hcomment]
  have hliteral : ({ q with comment := if slot.isLiteral then String.ofList argument.leadingText
      else "" } : Param Style).isLiteral = slot.isLiteral := hsame.isLiteral
  rw [hstore, withoutLiteralComment, hliteral]
  split
  · exact congrArg Except.ok hq.symm
  · exact congrArg Except.ok hq.symm

namespace Registry

variable {r : Registry}

/-- The value of an argument by itself, if it has one. -/
def value? (r : Registry) (literal : Bool) (argument : Source) : Option Value :=
  if literal then some (.int (Literal.read argument.literal))
  else (r.parse argument.text).toOption.map .style

/-- What an argument is in a text is what it is by itself. -/
theorem value?_of_argumentValue {parent : String} {index : Nat} {literal : Bool}
    {argument : Source} {value : Value} (hargument : argument.Legible)
    (h : argumentValue (fun x => r.parseWithin levelLimit x) parent index literal argument
      = .ok value) :
  r.value? literal argument = some value
  := by
  rw [argumentValue] at h
  rw [value?]
  split at h
  · next hliteral =>
    obtain rfl := Except.ok.inj h
    rw [if_pos hliteral]
  · next hliteral =>
    cases hchild : r.parseWithin levelLimit argument with
    | error e =>
      rw [hchild] at h
      cases h
    | ok c =>
      have hne : r.parseWithin levelLimit argument ≠ .error (.tooDeep levelLimit) := by
        rw [hchild]
        intro hdeep
        cases hdeep
      rw [hchild] at h
      obtain rfl := Except.ok.inj h
      rw [if_neg hliteral, parse_argument hargument hne, hchild]
      rfl

/-- Arguments that are read have values that are stored in the same slots; by induction on the
slots. -/
theorem exists_storeEach_of_readEach {parent : String} {index : Nat} {slots ps : List (Param Style)}
    {arguments : List Source} (hslots : ∀ p ∈ slots, p.comment = "")
    (hlegible : ∀ x ∈ arguments, x.Legible) (hlength : arguments.length = slots.length)
    (h : Param.readEach (fun x => r.parseWithin levelLimit x) parent index slots arguments
      = .ok ps) :
  ∃ values, Param.storeEach slots values = .ok (ps.map Param.withoutLiteralComment)
    ∧ values.length = arguments.length
    ∧ ∀ (i : Nat) (slot : Param Style) argument, slots[i]? = some slot →
      arguments[i]? = some argument → values[i]? = r.value? slot.isLiteral argument
  := by
  induction slots generalizing index arguments ps with
  | nil =>
    obtain rfl := List.length_eq_zero_iff.mp hlength
    obtain rfl := Except.ok.inj h
    exact ⟨[], rfl, rfl, nofun⟩
  | cons slot slots ih =>
    obtain ⟨argument, arguments, rfl⟩ := List.exists_cons_of_length_eq_add_one hlength
    obtain ⟨q, qs, hq, hqs, rfl⟩ := Param.readEach_cons_eq_ok h
    obtain ⟨hslot, hslots⟩ := List.forall_mem_cons.mp hslots
    obtain ⟨hargument, hlegible⟩ := List.forall_mem_cons.mp hlegible
    obtain ⟨value, hvalue, hstore⟩ := Param.store_of_read hslot hq
    obtain ⟨values, hvalues, hcount, hget⟩ := ih hslots hlegible (by simpa using hlength) hqs
    use value :: values
    refine ⟨?_, congrArg (· + 1) hcount, ?_⟩
    · exact Param.storeEach_cons_eq_ok.mpr ⟨_, _, hstore, hvalues, rfl⟩
    · intro i slot' argument' hslot' hargument'
      cases i with
      | zero =>
        obtain rfl := Option.some.inj hslot'
        obtain rfl := Option.some.inj hargument'
        exact (value?_of_argumentValue hargument hvalue).symm
      | succ i => exact hget i slot' argument' hslot' hargument'

/-- A parsed node is created from the values of its arguments, apart from its comments. -/
theorem exists_instantiate_of_parse (hr : r.Uncommented)
    (hcomment : ∀ e ∈ r.entries, e.template.comment = "") {text : String} {t : Style}
    (h : r.parse text = .ok t) :
  ∃ e template values, Expression.ofText? text = .ok e ∧ r.template? e.name = some template
    ∧ values.length = e.arguments.length
    ∧ (∀ i argument, e.arguments[i]? = some argument →
      ∃ p, template.params[min i (template.params.length - 1)]? = some p
        ∧ values[i]? = r.value? p.isLiteral argument)
    ∧ template.instantiate values
      = .ok { t with comment := "", params := t.params.map Param.withoutLiteralComment }
  := by
  cases hs : Source.ofText? text with
  | error error =>
    rw [parse, hs] at h
    cases h
  | ok s =>
    obtain ⟨hlegible, rfl⟩ := Source.text_of_ofText? hs
    rw [parse_text hlegible, parseWithin] at h
    split at h
    · cases h
    · next e he =>
      obtain ⟨template, ps, ht, hmax, hlength, hps, rfl⟩ := exists_readEach_of_parseNode h
      obtain ⟨entry, hentry, rfl, -⟩ := mem_of_template? ht
      have harguments : ∀ x ∈ e.arguments, x.Legible :=
        fun x hx => hlegible.of_isInfix (Expression.isInfix_of_mem_arguments he hx)
      obtain ⟨values, hvalues, hcount, hget⟩ := exists_storeEach_of_readEach (hr.slots ht _)
        harguments hlength hps
      refine ⟨e, entry.template, values, hlegible.ofText?_expression.trans he, ht, hcount, ?_, ?_⟩
      · intro i argument hargument
        have hlt : i < (entry.template.slots e.arguments.length).length := by
          rw [← hlength]
          exact (List.getElem?_eq_some_iff.mp hargument).1
        have hslot := List.getElem?_eq_getElem hlt
        obtain ⟨p, hp, hsame⟩ := Style.exists_declared_of_slots hslot
        use p, hp
        rw [hget i _ argument hslot hargument, hsame.isLiteral]
      · rw [← hcount] at hmax hvalues
        rw [Style.instantiate_eq_ok]
        refine ⟨hmax, _, hvalues, ?_⟩
        rw [← hcomment entry hentry]

/-- Creating a node and parsing it bind values in the same way.  A node is created from some values
exactly if they are no more than the parameters of the template, unless the last one is variadic,
and each is taken by the declared parameter at its position or by the last one; and then the
parameters without a value are those of the template.  A text of a registry without comments is
parsed to the node that is created from what its arguments are by themselves, apart from the
comment of the node and those of its literals. -/
theorem creation_agrees_with_parsing :
  (∀ (s : Style) (values : List Value),
    ((∃ t, s.instantiate values = .ok t)
      ↔ (values.length ≤ s.params.length ∨ s.isVariadic = true)
        ∧ ∀ i value, values[i]? = some value →
          ∃ p, s.params[min i (s.params.length - 1)]? = some p ∧ p.Takes value)
    ∧ ∀ t, s.instantiate values = .ok t →
      t = { s with params := t.params }
      ∧ (∀ i, values.length ≤ i → t.params[i]? = s.params[i]?)
      ∧ ∀ (i : Nat) value, values[i]? = some value → ∃ slot p : Param Style,
        (s.slots values.length)[i]? = some slot ∧ slot.store value = .ok p ∧ t.params[i]? = some p)
    ∧ ∀ (r : Registry) (text : String) (t : Style), r.Uncommented →
      (∀ e ∈ r.entries, e.template.comment = "") → r.parse text = .ok t →
      ∃ e template values, Expression.ofText? text = .ok e ∧ r.template? e.name = some template
        ∧ values.length = e.arguments.length
        ∧ (∀ i argument, e.arguments[i]? = some argument →
          ∃ p, template.params[min i (template.params.length - 1)]? = some p
            ∧ values[i]? = r.value? p.isLiteral argument)
        ∧ template.instantiate values
          = .ok { t with comment := "", params := t.params.map Param.withoutLiteralComment }
  := by
  constructor
  · intro s values
    exact ⟨Style.exists_instantiate_iff, fun t ht => Style.params_instantiate ht⟩
  · intro r text t hr hcomment h
    apply exists_instantiate_of_parse hr hcomment h

/-- A colour of two numbers is not created from three, and a text of one with comments is created
from the numbers in it. -/
theorem creation_agrees_with_parsing_rgb :
  (¬ ∃ t, sampleColor.instantiate [.int 1, .int 2, .int 3] = .ok t)
    ∧ sampleRegistry.Uncommented ∧ (∀ e ∈ sampleRegistry.entries, e.template.comment = "")
    ∧ ∃ t template values, sampleRegistry.parse "// shade\nRgb</* red */ 1, 70000>" = .ok t
      ∧ (t.comment, t.params.map (·.comment)) = ("shade", ["red", ""])
      ∧ sampleRegistry.template? "Rgb" = some template
      ∧ template.instantiate values
        = .ok { t with comment := "", params := t.params.map Param.withoutLiteralComment }
  := by
  obtain ⟨hcreate, hparsed⟩ := creation_agrees_with_parsing
  have hr : sampleRegistry.Uncommented := by
    unfold Uncommented
    decide +kernel
  have hcomment : ∀ e ∈ sampleRegistry.entries, e.template.comment = "" := by decide +kernel
  obtain ⟨hparse, hname⟩ : (sampleRegistry.parse "// shade\nRgb</* red */ 1, 70000>").toOption.map
        (fun t => (t.comment, t.params.map (·.comment))) = some ("shade", ["red", ""])
      ∧ (Expression.ofText? "// shade\nRgb</* red */ 1, 70000>").toOption.map (·.name)
        = some "Rgb" := by
    decide +kernel
  obtain ⟨t, ht, hcomments⟩ := exists_of_map_toOption_eq_some hparse
  obtain ⟨e', he', hname⟩ := exists_of_map_toOption_eq_some hname
  obtain ⟨e, template, values, he, htemplate, -, -, hinstantiate⟩ := hparsed _ _ _ hr hcomment ht
  obtain rfl := Except.ok.inj (he.symm.trans he')
  rw [hname] at htemplate
  refine ⟨?_, hr, hcomment, t, template, values, ht, hcomments, htemplate, hinstantiate⟩
  rw [(hcreate _ _).1]
  rintro ⟨hmax, -⟩
  exact absurd hmax (by decide)

end Registry

end BladeStyle
