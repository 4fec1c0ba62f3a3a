import BladeStyle.Proofs.Parsing.Unlimited
import BladeStyle.Proofs.Registry.Registration

/-!
# Further templates

A template that is registered in addition changes at most the lookup of its own name.  If that
name is answered from an earlier section, no lookup changes.  If it is unknown, the parser
stops at the first place where it comes to the name, so whatever is parsed, or refused for
another reason, never comes to it.
-/

namespace BladeStyle

theorem ParseError.innermost_inArgument (parent : String) (index : Nat) (error : ParseError) :
  (error.inArgument parent index).innermost = error.innermost
  := by
  cases error <;> rfl

/-- A result that stays the same in another registry, unless it is that the name is unknown. -/
def ParseError.Kept {α : Type} (name : String) (x y : Except ParseError α) : Prop :=
  (∃ error, x = .error error ∧ error.innermost = .unknownStyle name) ∨ y = x

namespace Registry

variable {r r' : Registry} {home : Section} {template : Style} {name : String}

/-! ### Lookups -/

theorem template?_insert_of_ne (h : template.name ≠ name) :
  (r.insert home template).template? name = r.template? name
  := by
  simp only [template?, find?, get?_insert, h, and_false, if_false]

theorem template?_insert_of_later {first : Section} (h : r.home? template.name = some first)
    (hlater : first.position < home.position) (name : String) :
  (r.insert home template).template? name = r.template? name
  := by
  rw [template?, template?, find?_insert_of_later h hlater]

/-! ### Parsing with other lookups -/

section Kept

variable {f g : Source → Except ParseError Style} {parent : String} {arguments : List Source}

theorem kept_argumentValue {argument : Source}
    (h : ParseError.Kept name (f argument) (g argument)) (index : Nat) (literal : Bool) :
  ParseError.Kept name (argumentValue f parent index literal argument)
    (argumentValue g parent index literal argument)
  := by
  cases literal with
  | true => exact Or.inr rfl
  | false =>
    rcases h with ⟨error, hf, herror⟩ | hsame
    · left
      use error.inArgument parent (index + 1)
      simp [argumentValue, hf, herror, ParseError.innermost_inArgument]
    · right
      simp [argumentValue, hsame]

theorem kept_bindArguments
    (h : ∀ argument ∈ arguments, ParseError.Kept name (f argument) (g argument))
    (declared index : Nat) (s : Style) :
  ParseError.Kept name (bindArguments f parent declared index s arguments)
    (bindArguments g parent declared index s arguments)
  := by
  induction arguments generalizing index s with
  | nil => exact Or.inr rfl
  | cons argument arguments ih =>
    obtain ⟨hargument, harguments⟩ := List.forall_mem_cons.mp h
    simp only [bindArguments]
    rcases kept_argumentValue hargument index (s.takesLiteral declared index)
      with ⟨error, hvalue, herror⟩ | hsame
    · left
      use error
      rw [hvalue]
      exact ⟨rfl, herror⟩
    · rw [hsame]
      split
      · exact Or.inr rfl
      · split
        · exact Or.inr rfl
        · apply ih harguments

theorem kept_parseNode {e : Expression}
    (htemplate : r.template? e.name = none ∧ e.name = name
      ∨ r'.template? e.name = r.template? e.name)
    (h : ∀ argument ∈ e.arguments, ParseError.Kept name (f argument) (g argument)) :
  ParseError.Kept name (r.parseNode f e) (r'.parseNode g e)
  := by
  rcases htemplate with ⟨hunknown, rfl⟩ | hsame
  · left
    use .unknownStyle e.name
    rw [parseNode, hunknown]
    exact ⟨rfl, rfl⟩
  · rw [parseNode, parseNode, hsame]
    split
    · exact Or.inr rfl
    · next template ht =>
      dsimp only
      split
      · exact Or.inr rfl
      · rcases kept_bindArguments h template.params.length 0 template
          with ⟨error, hbind, herror⟩ | hsame
        · left
          use error
          rw [hbind]
          exact ⟨rfl, herror⟩
        · right
          rw [hsame]

end Kept

/-- If two registries differ at most in one name, which the first does not know, results are
kept; by induction on the levels. -/
theorem kept_parseWithin (hunknown : r.template? name = none)
    (hsame : ∀ other, other ≠ name → r'.template? other = r.template? other) (levels : Nat)
    (s : Source) :
  ParseError.Kept name (r.parseWithin levels s) (r'.parseWithin levels s)
  := by
  induction levels generalizing s with
  | zero => exact Or.inr rfl
  | succ levels ih =>
    rw [parseWithin, parseWithin]
    cases Expression.ofSource? s with
    | error e => exact Or.inr rfl
    | ok e =>
      apply kept_parseNode
      · by_cases hname : e.name = name
        · left
          rw [hname]
          exact ⟨hunknown, rfl⟩
        · right
          apply hsame e.name hname
      · exact fun argument _ => ih argument

theorem kept_parse (hunknown : r.template? name = none)
    (hsame : ∀ other, other ≠ name → r'.template? other = r.template? other) (text : String) :
  ParseError.Kept name (r.parse text) (r'.parse text)
  := by
  rw [parse, parse]
  cases Source.ofText? text with
  | error e => exact Or.inr rfl
  | ok s => apply kept_parseWithin hunknown hsame

/-- Registries that answer alike parse alike. -/
theorem parse_congr (h : ∀ name, r'.template? name = r.template? name) (text : String) :
  r'.parse text = r.parse text
  := by
  have hlevels : ∀ levels s, r'.parseWithin levels s = r.parseWithin levels s := by
    intro levels
    induction levels with
    | zero => exact fun _ => rfl
    | succ levels ih =>
      intro s
      simp only [parseWithin, parseNode, ih, h]
  simp only [parse, hlevels]

/-- A further template never breaks a text that was parsed.  If its name is answered from an
earlier section, every text has the outcome that it had.  If its name was unknown, what was
parsed is parsed to the same style, and what failed fails in the same way, unless it failed
because that name was unknown. -/
theorem extension_keeps_parsing (r : Registry) (home : Section) (template : Style)
    (text : String) :
  let extended := (r.register home template).2
  (∀ first, r.home? template.name = some first → first.position < home.position →
      extended.parse text = r.parse text)
    ∧ (r.template? template.name = none →
      (∀ t, r.parse text = .ok t → extended.parse text = .ok t)
        ∧ ∀ error, r.parse text = .error error → error.innermost ≠ .unknownStyle template.name →
          extended.parse text = .error error)
  := by
  dsimp only [register]
  constructor
  · intro first hfirst hlater
    apply parse_congr
    apply template?_insert_of_later hfirst hlater
  · intro hunknown
    have hothers : ∀ other, other ≠ template.name →
        (r.insert home template).template? other = r.template? other :=
      fun other hother => template?_insert_of_ne (Ne.symm hother)
    have hkept := kept_parse hunknown hothers text
    constructor
    · intro t ht
      rcases hkept with ⟨error, herror, -⟩ | hsame
      · rw [ht] at herror
        cases herror
      · rw [hsame, ht]
    · intro error herror hother
      rcases hkept with ⟨error', herror', hname⟩ | hsame
      · rw [herror] at herror'
        obtain rfl := Except.error.inj herror'
        exact absurd hname hother
      · rw [hsame, herror]

/-- Among the transitions a layer of the name `TrInstant` changes nothing, and neither does a
transition `TrFade`, except for a text that names it. -/
theorem extension_keeps_parsing_transitions :
  (transitionRegistry.register .layer (Builtin.bare "TrInstant" .layer)).2.parse
      "TrConcat<TrInstant>" = transitionRegistry.parse "TrConcat<TrInstant>"
    ∧ (∃ t, transitionRegistry.parse "TrConcat<TrInstant>" = .ok t
      ∧ (transitionRegistry.register .transition (Builtin.bare "TrFade" .transition)).2.parse
        "TrConcat<TrInstant>" = .ok t)
    ∧ (transitionRegistry.register .transition (Builtin.bare "TrFade" .transition)).2.parse
        "TrConcat<TrInstant, TrConcat<>>"
      = .error (.nested "TrConcat" 2 (.arity "TrConcat" 1 0 true))
    ∧ transitionRegistry.parse "TrConcat<TrFade>"
      = .error (.nested "TrConcat" 1 (.unknownStyle "TrFade"))
  := by
  have hfirst : transitionRegistry.home? "TrInstant" = some .transition := by decide +kernel
  have hunknown : transitionRegistry.template? "TrFade" = none := by decide +kernel
  have hparses : (transitionRegistry.parse "TrConcat<TrInstant>").toOption.map (·.name)
      = some "TrConcat" := by
    decide +kernel
  have hfails : transitionRegistry.parse "TrConcat<TrInstant, TrConcat<>>"
      = .error (.nested "TrConcat" 2 (.arity "TrConcat" 1 0 true)) := by
    decide +kernel
  obtain ⟨t, ht, -⟩ := exists_of_map_toOption_eq_some hparses
  obtain ⟨hshadowed, -⟩ := extension_keeps_parsing transitionRegistry .layer
    (Builtin.bare "TrInstant" .layer) "TrConcat<TrInstant>"
  obtain ⟨-, hknown⟩ := extension_keeps_parsing transitionRegistry .transition
    (Builtin.bare "TrFade" .transition) "TrConcat<TrInstant>"
  obtain ⟨-, hknown'⟩ := extension_keeps_parsing transitionRegistry .transition
    (Builtin.bare "TrFade" .transition) "TrConcat<TrInstant, TrConcat<>>"
  refine ⟨hshadowed .transition hfirst (by decide), ⟨t, ht, (hknown hunknown).1 t ht⟩, ?_, ?_⟩
  · apply (hknown' hunknown).2 _ hfails
    nofun
  · decide +kernel

end Registry

end BladeStyle
