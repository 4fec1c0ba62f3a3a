import BladeStyle.Proofs.Parsing.Slots
import BladeStyle.Proofs.Registry.Templates
import BladeStyle.Proofs.Style.Tree

/-!
# Parsing rewritten sources

A neutral rewriting changes what the comments of a source say and nothing else.  If it does
so in the same way wherever the comments stand, the style of the rewritten source is the
style of the source with its comments changed in that way, and the errors are the same.
Padding a source with layout characters does not change its style either.
-/

namespace BladeStyle

/-- A neutral rewriting that turns a text of comments into what `g` makes of it. -/
structure Piece.Recommenting (f : Piece → Source) (g : String → String) : Prop
    extends Piece.Neutral f where
  text : ∀ s : Source, String.ofList (Comment.joinedText (Source.comments (s.flatMap f)))
    = g (String.ofList (Comment.joinedText s.comments))

variable {f : Piece → Source} {g : String → String}

theorem Piece.Recommenting.empty (h : Piece.Recommenting f g) :
  g "" = ""
  := (h.text []).symm

theorem Source.leadingText_flatMap (h : Piece.Recommenting f g) (s : Source) :
  String.ofList (Source.leadingText (s.flatMap f)) = g (String.ofList s.leadingText)
  := by
  rw [Source.leadingText, Source.takeWhile_flatMap h.toNeutral, h.text]
  · rfl
  · intro p hp
    rw [decide_eq_true_eq]
    rintro rfl
    cases hp

/-- The value with `g` applied to every comment in it. -/
def Value.mapComments (g : String → String) : Value → Value
  | int n => int n
  | style s => style (s.mapComments g)

namespace Param

/-- In a slot without a comment an argument leaves its own, if it is a literal. -/
theorem read_eq (parseChild : Source → Except ParseError Style) (parent : String) (index : Nat)
    {slot : Param Style} (h : slot.comment = "") (argument : Source) :
  read parseChild parent index slot argument
    = match Registry.argumentValue parseChild parent index slot.isLiteral argument with
      | .error e => .error e
      | .ok value =>
        match slot.store value with
        | .error e => .error (.bind parent (index + 1) e)
        | .ok p =>
          .ok { p with
            comment := if slot.isLiteral then String.ofList argument.leadingText else "" }
  := by
  rw [read]
  cases Registry.argumentValue parseChild parent index slot.isLiteral argument with
  | error e => rfl
  | ok value =>
    dsimp only
    cases hp : slot.store value with
    | error e => rfl
    | ok p =>
      have hcomment := (store_eq_ok hp).2.trans h
      obtain ⟨name, kind, slot', comment⟩ := p
      obtain rfl := hcomment
      cases slot.isLiteral with
      | false => simp
      | true =>
        by_cases htext : argument.leadingText = [] <;> simp [htext]

theorem store_mapComments (p : Param Style) (value : Value) :
  p.store (value.mapComments g)
    = (p.store value).map fun q => { q with slot := q.slot.map (Style.mapComments g) }
  := by
  obtain ⟨name, kind, slot, comment⟩ := p
  cases value with
  | int n => cases slot <;> rfl
  | style s =>
    simp only [Value.mapComments, store, fill, Style.category_mapComments]
    split
    · rfl
    · split <;> rfl

variable {parseChild parseChild' : Source → Except ParseError Style} {parent : String}

theorem argumentValue_flatMap (h : Piece.Recommenting f g)
    (hchild : ∀ s, parseChild' (s.flatMap f) = (parseChild s).map (Style.mapComments g))
    (index : Nat) (literal : Bool) (argument : Source) :
  Registry.argumentValue parseChild' parent index literal (argument.flatMap f)
    = (Registry.argumentValue parseChild parent index literal argument).map
        (Value.mapComments g)
  := by
  simp only [Registry.argumentValue, Source.literal_flatMap h.toNeutral, hchild]
  split
  · rfl
  · cases parseChild argument <;> rfl

theorem read_flatMap (h : Piece.Recommenting f g)
    (hchild : ∀ s, parseChild' (s.flatMap f) = (parseChild s).map (Style.mapComments g))
    (index : Nat) {slot : Param Style} (hslot : slot.comment = "") (argument : Source) :
  read parseChild' parent index slot (argument.flatMap f)
    = (read parseChild parent index slot argument).map (mapComments g)
  := by
  rw [read_eq _ _ _ hslot, read_eq _ _ _ hslot, argumentValue_flatMap h hchild,
    Source.leadingText_flatMap h]
  cases Registry.argumentValue parseChild parent index slot.isLiteral argument with
  | error e => rfl
  | ok value =>
    simp only [Except.map, store_mapComments]
    cases slot.store value with
    | error e => rfl
    | ok p =>
      cases slot.isLiteral with
      | true => rfl
      | false => simp [mapComments, h.empty]

theorem readEach_flatMap (h : Piece.Recommenting f g)
    (hchild : ∀ s, parseChild' (s.flatMap f) = (parseChild s).map (Style.mapComments g))
    (index : Nat) {slots : List (Param Style)} (hslots : ∀ p ∈ slots, p.comment = "")
    (arguments : List Source) :
  readEach parseChild' parent index slots (arguments.map (·.flatMap f))
    = (readEach parseChild parent index slots arguments).map (List.map (mapComments g))
  := by
  induction slots generalizing index arguments with
  | nil => cases arguments <;> rfl
  | cons slot slots ih =>
    obtain ⟨hslot, hslots⟩ := List.forall_mem_cons.mp hslots
    cases arguments with
    | nil => rfl
    | cons argument arguments =>
      simp only [List.map_cons, readEach, read_flatMap h hchild index hslot,
        ih (index + 1) hslots]
      cases read parseChild parent index slot argument with
      | error e => rfl
      | ok p => cases readEach parseChild parent (index + 1) slots arguments <;> rfl

end Param

namespace Registry

variable {r : Registry}

/-- The style of a rewritten source. -/
theorem parseWithin_flatMap (hr : r.Uncommented) (h : Piece.Recommenting f g) (levels : Nat)
    (s : Source) :
  r.parseWithin levels (s.flatMap f) = (r.parseWithin levels s).map (Style.mapComments g)
  := by
  induction levels generalizing s with
  | zero => rfl
  | succ levels ih =>
    rw [parseWithin, parseWithin, Source.ofSource?_flatMap h.toNeutral]
    cases he : Expression.ofSource? s with
    | error e => rfl
    | ok e =>
      have hcomment : String.ofList (Comment.joinedText
          (Source.comments ((Source.splitAtName s).1.flatMap f)))
          = g (String.ofList e.comment) := by
        rw [h.text, ← Source.leading_of_ofSource? he]
        rfl
      simp only [Except.map, parseNode_eq, Expression.comment, List.length_map] at hcomment ⊢
      cases ht : r.template? e.name with
      | none => rfl
      | some template =>
        dsimp only
        split
        · rfl
        · rw [Param.readEach_flatMap h ih 0 (hr.slots ht _), hcomment]
          cases Param.readEach (fun argument => r.parseWithin levels argument) e.name 0
              (template.slots e.arguments.length) e.arguments with
          | error e => rfl
          | ok ps => simp [Except.map, Style.mapComments_eq_map]

/-- Padding does not change a style. -/
theorem parseWithin_padded {core x : Source} (h : Source.Padded core x) (levels : Nat) :
  r.parseWithin levels x = r.parseWithin levels core
  := by
  cases levels with
  | zero => rfl
  | succ levels => rw [parseWithin, parseWithin, h.ofSource?]

end Registry

end BladeStyle
