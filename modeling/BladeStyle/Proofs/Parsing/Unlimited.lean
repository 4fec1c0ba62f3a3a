import BladeStyle.Proofs.Parsing.Attempts
import BladeStyle.Proofs.Source.Division

/-!
# Parsing without a limit

Parsing is compositional: the children of a style and the failures in it are those of the texts
of its arguments, each parsed by itself.  `Registry.parseFully` does this for any number of
levels.  The parser with a limit agrees with it, except on a text where it comes to a child
below the last level before anything fails.
-/

namespace BladeStyle

/-- The text of a source. -/
def Source.text (s : Source) : String := String.ofList s.written

namespace Source

/-- The source of a text is legible and has that text. -/
theorem text_of_ofText? {text : String} {s : Source} (h : ofText? text = .ok s) :
  s.Legible ∧ s.text = text
  := by
  obtain ⟨hs, hwritten⟩ := ofText?_eq_ok_iff.mp h
  use hs
  rw [Source.text, hwritten, String.ofList_toList]

/-- A legible source comes back from its text. -/
theorem Legible.ofText?_text {s : Source} (h : s.Legible) :
  ofText? s.text = .ok s
  := ofText?_eq_ok_iff.mpr ⟨h, String.toList_ofList.symm⟩

/-- The outermost level of a legible source is that of its text. -/
theorem Legible.ofText?_expression {s : Source} (h : s.Legible) :
  Expression.ofText? s.text = Expression.ofSource? s
  := by
  rw [Expression.ofText?, h.ofText?_text]
  rfl

end Source

namespace Registry

variable {r : Registry}

/-! ### The parser without a limit -/

/-- The style that a text stands for, with any number of levels.  The children are parsed from
the texts of the arguments. -/
def parseFully (r : Registry) (text : String) : Except ParseError Style :=
  match Expression.ofText? text with
  | .error e => .error (.malformed e)
  | .ok e => r.parseNode (fun argument =>
      -- an argument is always shorter than the text
      if _h : argument.text.length < text.length then r.parseFully argument.text
      else .error (.malformed .missingName)) e
termination_by text.length

/-- Without a limit every argument is read as a text of its own. -/
theorem parseFully_eq (r : Registry) (text : String) :
  r.parseFully text
    = match Expression.ofText? text with
      | .error e => .error (.malformed e)
      | .ok e => r.parseNode (fun argument => r.parseFully argument.text) e
  := by
  rw [parseFully]
  cases hs : Source.ofText? text with
  | error e =>
    rw [Expression.ofText?, hs]
    rfl
  | ok s =>
    obtain ⟨hlegible, rfl⟩ := Source.text_of_ofText? hs
    rw [hlegible.ofText?_expression]
    cases he : Expression.ofSource? s with
    | error e => rfl
    | ok e =>
      apply parseNode_congr
      intro argument hargument
      have hlt := Expression.length_lt_of_mem_arguments he hargument.mem
      apply dif_pos
      rwa [Source.text, Source.text, String.length_ofList, String.length_ofList]

/-- Without a limit nothing is too deep. -/
theorem parseFully_ne_tooDeep (text : String) (limit : Nat) :
  r.parseFully text ≠ .error (.tooDeep limit)
  := by
  fun_induction parseFully r text with
  | case1 => nofun
  | case2 text e he ih =>
    intro hdeep
    obtain ⟨i, argument, source, -, hsource, herror⟩ := exists_of_parseNode_eq_error rfl hdeep
    obtain rfl := ParseError.of_inArgument_eq_tooDeep herror.symm
    split at hsource
    · next hlt => exact ih argument hlt hsource
    · cases hsource

/-- Parsing a text without a limit comes to a child at the given depth. -/
inductive Descends (r : Registry) : String → Nat → Prop where
  | start (text : String) : Descends r text 0
  | child {text : String} {e : Expression} {argument : Source} {depth : Nat}
      (he : Expression.ofText? text = .ok e)
      (hargument : r.AttemptsChild (fun x => r.parseFully x.text) e argument)
      (h : Descends r argument.text depth) : Descends r text (depth + 1)

/-- A text that descends to some depth descends to the one before. -/
theorem descends_of_succ {text : String} {depth : Nat} (h : r.Descends text (depth + 1)) :
  r.Descends text depth
  := by
  induction depth generalizing text with
  | zero => apply Descends.start
  | succ depth ih =>
    cases h with
    | child he hargument h => exact Descends.child he hargument (ih h)

/-! ### The parser with a limit -/

/-- Where no child is below the last level, the limit makes no difference; by induction on the
levels. -/
theorem parseWithin_eq_parseFully {levels : Nat} {s : Source} (hs : s.Legible)
    (h : ¬ r.Descends s.text levels) :
  r.parseWithin levels s = r.parseFully s.text
  := by
  induction levels generalizing s with
  | zero => exact absurd (Descends.start s.text) h
  | succ levels ih =>
    rw [parseFully_eq, parseWithin, hs.ofText?_expression]
    cases he : Expression.ofSource? s with
    | error e => rfl
    | ok e =>
      apply parseNode_congr
      intro argument hargument
      apply ih (hs.of_isInfix (Expression.isInfix_of_mem_arguments he hargument.mem))
      intro hdescends
      exact h (Descends.child (hs.ofText?_expression.trans he) hargument hdescends)

/-- A child below the last level makes the text too deep. -/
theorem parseWithin_of_descends {levels : Nat} {s : Source} (hs : s.Legible)
    (h : r.Descends s.text levels) :
  r.parseWithin levels s = .error (.tooDeep levelLimit)
  := by
  induction levels generalizing s with
  | zero => rfl
  | succ levels ih =>
    cases h with
    | @child _ e argument _ he hargument h =>
      rw [hs.ofText?_expression] at he
      have hlegible : ∀ x, r.AttemptsChild (fun x => r.parseFully x.text) e x → x.Legible :=
        fun x hx => hs.of_isInfix (Expression.isInfix_of_mem_arguments he hx.mem)
      rw [parseWithin, he]
      apply parseNode_eq_tooDeep _ hargument (ih (hlegible argument hargument) h)
      intro x hx
      by_cases hdescends : r.Descends x.text levels
      · exact Or.inr (ih (hlegible x hx) hdescends)
      · exact Or.inl (parseWithin_eq_parseFully (hlegible x hx) hdescends)

/-- One more level changes nothing for a text that is not too deep. -/
theorem parseWithin_succ {levels : Nat} {s : Source} (hs : s.Legible)
    (h : r.parseWithin levels s ≠ .error (.tooDeep levelLimit)) :
  r.parseWithin (levels + 1) s = r.parseWithin levels s
  := by
  have hfree : ¬ r.Descends s.text levels :=
    fun hdescends => h (parseWithin_of_descends hs hdescends)
  rw [parseWithin_eq_parseFully hs hfree, parseWithin_eq_parseFully hs]
  exact fun hdescends => hfree (descends_of_succ hdescends)

/-! ### Arguments by themselves -/

/-- What an argument is by itself, as the contents of its slot. -/
def Fills (r : Registry) (argument : Source) : Slot Style → Prop
  | .number n => n = nearestNumber (Literal.read argument.literal)
  | .bits b => b = lowBits (Literal.read argument.literal)
  | .bool v => v = decide (Literal.read argument.literal ≠ 0)
  | .empty => False
  | .child c => r.parse argument.text = .ok c

/-- The text of a legible source is parsed as that source. -/
theorem parse_text {s : Source} (hs : s.Legible) :
  r.parse s.text = r.parseWithin (levelLimit + 1) s
  := by
  rw [parse, hs.ofText?_text]

/-- What is parsed one level below a text is parsed by itself in the same way. -/
theorem parse_argument {s : Source} (hs : s.Legible)
    (h : r.parseWithin levelLimit s ≠ .error (.tooDeep levelLimit)) :
  r.parse s.text = r.parseWithin levelLimit s
  := by
  rw [parse_text hs, parseWithin_succ hs h]

/-- A slot that is read is filled with what its argument says. -/
theorem fills_of_read {parent : String} {index : Nat} {slot p : Param Style} {argument : Source}
    (hargument : argument.Legible)
    (h : Param.read (fun x => r.parseWithin levelLimit x) parent index slot argument = .ok p) :
  r.Fills argument p.slot
  := by
  obtain ⟨value, q, hvalue, hstore, heq⟩ := Param.exists_of_read_eq_ok h
  have hslot : p.slot = q.slot := by rw [heq]
  rw [hslot]
  cases hliteral : slot.isLiteral with
  | true =>
    rw [hliteral] at hvalue
    obtain rfl := Except.ok.inj hvalue
    obtain ⟨name, kind, slot, comment⟩ := slot
    cases slot with
    | number _ | bits _ | bool _ =>
      obtain rfl := Except.ok.inj hstore
      rfl
    | empty | child _ => cases hliteral
  | false =>
    simp only [argumentValue, hliteral] at hvalue
    cases hchild : r.parseWithin levelLimit argument with
    | error e =>
      rw [hchild] at hvalue
      cases hvalue
    | ok c =>
      rw [hchild] at hvalue
      obtain rfl := Except.ok.inj hvalue
      obtain ⟨-, -, rfl⟩ := Param.fill_eq_ok hstore
      have hne : r.parseWithin levelLimit argument ≠ .error (.tooDeep levelLimit) := by
        rw [hchild]
        intro hdeep
        cases hdeep
      exact (parse_argument hargument hne).trans hchild

/-- The parameters of a parsed style are what the arguments are by themselves. -/
theorem forall₂_fills {s : Source} (hs : s.Legible) {e : Expression}
    (he : Expression.ofSource? s = .ok e) {t : Style}
    (h : r.parseNode (fun x => r.parseWithin levelLimit x) e = .ok t) :
  List.Forall₂ (fun argument p => r.Fills argument p.slot) e.arguments t.params
  := by
  obtain ⟨template, ps, -, -, hlength, hps, rfl⟩ := exists_readEach_of_parseNode h
  have hsame := Param.sameSlot_readEach hps hlength
  apply List.forall₂_iff_zip.mpr
  use hlength.trans hsame.length_eq.symm
  intro argument p hp
  obtain ⟨i, slot, -, hread⟩ := Param.exists_read_of_mem_zip hps hp
  apply fills_of_read _ hread
  apply hs.of_isInfix
  apply Expression.isInfix_of_mem_arguments he (List.of_mem_zip hp).1

/-- A failure in an argument is the failure of the argument by itself. -/
theorem parse_of_nested {s : Source} (hs : s.Legible) {e : Expression}
    (he : Expression.ofSource? s = .ok e) {parent : String} {index : Nat} {source : ParseError}
    (h : r.parseNode (fun x => r.parseWithin levelLimit x) e
      = .error (.nested parent index source)) :
  ∃ i argument, e.name = parent ∧ index = i + 1 ∧ e.arguments[i]? = some argument
    ∧ r.parse argument.text = .error source
  := by
  obtain ⟨i, argument, source', hargument, hsource, herror⟩ := exists_of_parseNode_eq_error rfl h
  obtain ⟨hname, hindex, rfl, hne⟩ := ParseError.of_inArgument_eq_nested herror.symm
  use i, argument, hname, hindex.symm, hargument
  have hlegible : argument.Legible := by
    apply hs.of_isInfix
    apply Expression.isInfix_of_mem_arguments he (List.mem_of_getElem? hargument)
  have hlevels : r.parseWithin levelLimit argument ≠ .error (.tooDeep levelLimit) := by
    rw [hsource]
    intro hdeep
    exact hne levelLimit (Except.error.inj hdeep)
  exact (parse_argument hlegible hlevels).trans hsource

/-- Parsing is compositional.  Every parameter of a parsed style is what its argument is by
itself; a failure in an argument is the failure of its text; and the parser agrees with the one
without a limit, except that a text is too deep if that one comes to a child one level below the
last. -/
theorem parse_compositional (r : Registry) (text : String) :
  (∀ t, r.parse text = .ok t → ∃ e, Expression.ofText? text = .ok e
      ∧ List.Forall₂ (fun argument p => r.Fills argument p.slot) e.arguments t.params)
    ∧ (∀ parent index source, r.parse text = .error (.nested parent index source) →
      ∃ e i argument, Expression.ofText? text = .ok e ∧ e.name = parent ∧ index = i + 1
        ∧ e.arguments[i]? = some argument ∧ r.parse argument.text = .error source)
    ∧ (r.parseFully text
      = match Expression.ofText? text with
        | .error e => .error (.malformed e)
        | .ok e => r.parseNode (fun argument => r.parseFully argument.text) e)
    ∧ (∀ limit, r.parseFully text ≠ .error (.tooDeep limit))
    ∧ (r.Descends text (levelLimit + 1) → r.parse text = .error (.tooDeep levelLimit))
    ∧ (¬ r.Descends text (levelLimit + 1) → r.parse text = r.parseFully text)
  := by
  cases hs : Source.ofText? text with
  | error error =>
    have htext : Expression.ofText? text = .error error := by
      rw [Expression.ofText?, hs]
      rfl
    have hparse : r.parse text = .error (.malformed error) := by
      rw [parse, hs]
    refine ⟨?_, ?_, parseFully_eq r text, parseFully_ne_tooDeep text, ?_, ?_⟩
    · intro t h
      rw [hparse] at h
      cases h
    · intro parent index source h
      rw [hparse] at h
      cases h
    · intro h
      cases h with
      | child he =>
        rw [htext] at he
        cases he
    · intro _
      rw [hparse, parseFully_eq, htext]
  | ok s =>
    obtain ⟨hlegible, rfl⟩ := Source.text_of_ofText? hs
    refine ⟨?_, ?_, parseFully_eq r s.text, parseFully_ne_tooDeep s.text, ?_, ?_⟩
    · intro t h
      rw [parse_text hlegible, parseWithin] at h
      split at h
      · cases h
      · next e he => exact ⟨e, hlegible.ofText?_expression.trans he, forall₂_fills hlegible he h⟩
    · intro parent index source h
      rw [parse_text hlegible, parseWithin] at h
      split at h
      · cases h
      · next e he =>
        obtain ⟨i, argument, hargument⟩ := parse_of_nested hlegible he h
        exact ⟨e, i, argument, hlegible.ofText?_expression.trans he, hargument⟩
    · intro h
      rw [parse_text hlegible]
      apply parseWithin_of_descends hlegible h
    · intro h
      rw [parse_text hlegible]
      apply parseWithin_eq_parseFully hlegible h

/-! ### Texts of any depth -/

/-- A transition, and one that others are inside of. -/
def transitionRegistry : Registry :=
  .ofList [(.transition, Builtin.bare "TrInstant" .transition),
    (.transition, .ofParams "TrConcat" "Concatenate" .transition
      [(Builtin.takes "Step" [.transition] none).asVariadic])]

/-- A transition inside the given number of others. -/
def concatenated : Nat → Source
  | 0 => Source.plain "TrInstant".toList
  | n + 1 =>
    Source.plain "TrConcat".toList
      ++ .char '<' :: (Source.separated [concatenated n] ++ [.char '>'])

theorem isPart_concatenated (n : Nat) :
  (concatenated n).IsPart
  := by
  induction n with
  | zero =>
    apply Source.IsPart.of_isInert
    apply List.all_eq_true.mp
    decide
  | succ n ih =>
    apply Source.IsPart.append
    · apply Source.IsPart.of_isInert
      apply List.all_eq_true.mp
      decide
    · apply Source.IsPart.brackets
      exact List.forall_mem_singleton.mpr ih

theorem literal_concatenated_ne_nil (n : Nat) :
  (concatenated n).literal ≠ []
  := by
  cases n with
  | zero => decide
  | succ n =>
    rw [concatenated, Source.literal_append]
    apply List.append_ne_nil_of_left_ne_nil
    decide

theorem ofSource?_concatenated (n : Nat) :
  Expression.ofSource? (concatenated (n + 1)) = .ok ⟨[], "TrConcat", [concatenated n]⟩
  := by
  have harguments : Source.arguments?
      (.char '<' :: (Source.separated [concatenated n] ++ [.char '>']))
      = some [concatenated n] := by
    apply Source.arguments?_brackets
    · exact List.forall_mem_singleton.mpr (isPart_concatenated n).balanced
    · exact List.forall_mem_singleton.mpr (literal_concatenated_ne_nil n)
  have hname : Source.IsName "TrConcat".toList :=
    ⟨'T', "rConcat".toList, rfl, rfl, List.all_eq_true.mp (by decide)⟩
  have hnamed := Source.ofSource?_named (List.forall_mem_nil _) hname rfl harguments
  rwa [String.ofList_toList] at hnamed

/-- Transitions one in the other descend as deep as there are of them. -/
theorem descends_concatenated (n : Nat) :
  transitionRegistry.Descends (concatenated n).text n
  := by
  have htemplate : ((transitionRegistry.template? "TrConcat").any fun template =>
      template.params.length = 1 ∧ template.takesLiteral 1 0 = false) = true := by
    decide +kernel
  obtain ⟨template, ht, hcomposite⟩ := (Option.any_eq_true _ _).mp htemplate
  obtain ⟨hlength, hcomposite⟩ := of_decide_eq_true hcomposite
  induction n with
  | zero => apply Descends.start
  | succ n ih =>
    have hlegible := Source.legible_of_isStable (isPart_concatenated (n + 1)).stable
    apply Descends.child (hlegible.ofText?_expression.trans (ofSource?_concatenated n)) _ ih
    refine ⟨template, ht, ?_, [], [], template, rfl, rfl, ?_⟩
    · rw [hlength]
      simp
    · rw [hlength]
      exact hcomposite

theorem parse_compositional_concatenated :
  transitionRegistry.parse (concatenated 65).text = .error (.tooDeep 64)
    ∧ transitionRegistry.parse "TrConcat<TrInstant, /* , */ TrConcat<>>"
      = .error (.nested "TrConcat" 2 (.arity "TrConcat" 1 0 true))
    ∧ transitionRegistry.parse " /* , */ TrConcat<>" = .error (.arity "TrConcat" 1 0 true)
  := by
  have hnested : transitionRegistry.parse "TrConcat<TrInstant, /* , */ TrConcat<>>"
      = .error (.nested "TrConcat" 2 (.arity "TrConcat" 1 0 true)) := by
    decide +kernel
  have hargument : (Expression.ofText? "TrConcat<TrInstant, /* , */ TrConcat<>>").toOption.map
      (fun e => e.arguments[1]?.map Source.text) = some (some " /* , */ TrConcat<>") := by
    decide +kernel
  obtain ⟨-, hfailure, -⟩ :=
    parse_compositional transitionRegistry "TrConcat<TrInstant, /* , */ TrConcat<>>"
  obtain ⟨-, -, -, -, hdeep, -⟩ := parse_compositional transitionRegistry (concatenated 65).text
  obtain ⟨e, i, argument, he, -, hi, hget, hparse⟩ := hfailure _ _ _ hnested
  obtain rfl := Nat.succ.inj hi
  rw [he] at hargument
  simp only [Except.toOption, Option.map_some, hget, Option.some_inj] at hargument
  rw [hargument] at hparse
  exact ⟨hdeep (descends_concatenated 65), hnested, hparse⟩

end Registry

end BladeStyle
