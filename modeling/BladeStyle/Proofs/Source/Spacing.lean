import BladeStyle.Proofs.Source.Rewriting
import Mathlib.Data.List.Forall2
import Mathlib.Data.Option.Defs

/-!
# Spacing

A source is spaced out by layout at a place that is not inside a word, where a word is a stretch
of characters that may belong to a name.  What a spaced source is taken apart into is that of
the source itself, in which at most one argument is spaced.
-/

namespace BladeStyle

/-- Whether a piece may be part of a name. -/
def Piece.isNamePart (p : Piece) : Bool := p.char?.any Source.isNamePart

theorem Piece.isNamePart_of_isBlank {p : Piece} (h : p.isBlank = true) :
  p.isNamePart = false
  := by
  cases p with
  | comment _ => rfl
  | char c => exact Source.isNamePart_of_isLayout h

namespace Source

/-- A source and the same source with layout at one place.  `inWord` tells whether the piece in
front of the source may be part of a name; then the layout does not stand before a piece that
may be part of one, too. -/
inductive Spaced : Bool → Source → Source → Prop where
  | front {inWord : Bool} {w s : Source} (hw : w.Padding)
      (hword : inWord = true → ∀ p ∈ s.head?, p.isNamePart = false) : Spaced inWord s (w ++ s)
  | cons {inWord : Bool} (p : Piece) {s t : Source} (h : Spaced p.isNamePart s t) :
      Spaced inWord (p :: s) (p :: t)

/-- Nothing has to be added to a source. -/
theorem Spaced.refl (inWord : Bool) (s : Source) :
  Spaced inWord s s
  := by
  induction s generalizing inWord with
  | nil =>
    apply Spaced.front Padding.nil
    exact fun _ => nofun
  | cons p s ih => apply Spaced.cons p (ih _)

theorem forall₂_spaced_refl (arguments : List Source) :
  List.Forall₂ (Spaced false) arguments arguments
  := List.forall₂_same.mpr fun s _ => Spaced.refl false s

/-- Layout can be put between any two parts of a source that are not of one word. -/
theorem spaced_insert {w : Source} (hw : w.Padding) {inWord : Bool} {a b : Source}
    (h : (a.getLast?.map Piece.isNamePart).getD inWord = true →
      ∀ p ∈ b.head?, p.isNamePart = false) :
  Spaced inWord (a ++ b) (a ++ w ++ b)
  := by
  induction a generalizing inWord with
  | nil => apply Spaced.front hw h
  | cons p a ih =>
    apply Spaced.cons p
    apply ih
    intro hlast
    apply h
    rw [← hlast, List.getLast?_cons]
    cases a.getLast? <;> rfl

/-! ### What stays the same -/

variable {inWord : Bool} {s t : Source}

/-- Layout that is added to a literal does not change it. -/
theorem Spaced.literal (h : Spaced inWord s t) :
  t.literal = s.literal
  := by
  induction h with
  | front hw _ => rw [literal_append, literal_of_blank hw.blank, List.nil_append]
  | @cons _ p s t _ ih =>
    have hs : Source.literal (p :: s) = Source.literal [p] ++ s.literal := literal_append [p] s
    have ht : Source.literal (p :: t) = Source.literal [p] ++ t.literal := literal_append [p] t
    rw [hs, ht, ih]

/-- The comments in front of the first piece that fails a test which layout passes. -/
theorem Spaced.comments_takeWhile (h : Spaced inWord s t) {test : Piece → Bool}
    (htest : ∀ p, p.isBlank = true → test p = true) :
  comments (t.takeWhile test) = comments (s.takeWhile test)
  := by
  induction h with
  | front hw _ =>
    rw [List.takeWhile_append_of_pos fun p hp => htest p (hw.blank p hp), comments_append,
      hw.comments, List.nil_append]
  | cons p _ ih =>
    rw [List.takeWhile_cons, List.takeWhile_cons]
    split
    · simp only [comments, List.filterMap_cons] at ih ⊢
      rw [ih]
    · rfl

/-- Layout that is added does not change what the comments before a name say. -/
theorem Spaced.leadingText (h : Spaced inWord s t) :
  t.leadingText = s.leadingText
  := by
  rw [Source.leadingText, Source.leadingText, h.comments_takeWhile]
  intro p hp
  rw [decide_eq_true_eq]
  rintro rfl
  cases hp

/-! ### The name -/

/-- Up to the name everything is passed over, and the name starts with the same piece. -/
theorem Spaced.dropWhile (h : Spaced inWord s t) :
  s.dropWhile startsNoName = [] ∧ t.dropWhile startsNoName = []
    ∨ ∃ p x y, s.dropWhile startsNoName = p :: x ∧ t.dropWhile startsNoName = p :: y
      ∧ Spaced p.isNamePart x y
  := by
  induction h with
  | @front _ w s hw _ =>
    have hall : ∀ p ∈ w, startsNoName p = true :=
      fun p hp => startsNoName_of_isBlank (hw.blank p hp)
    rw [List.dropWhile_append_of_pos hall]
    cases s.dropWhile startsNoName with
    | nil => exact Or.inl ⟨rfl, rfl⟩
    | cons p x => exact Or.inr ⟨p, x, x, rfl, rfl, Spaced.refl _ x⟩
  | @cons _ p s t h ih =>
    rw [List.dropWhile_cons, List.dropWhile_cons]
    split
    · exact ih
    · exact Or.inr ⟨p, s, t, rfl, rfl, h⟩

/-- No name is divided off where none goes on. -/
theorem splitName_of_head? (h : ∀ p ∈ s.head?, p.isNamePart = false) :
  splitName s = ([], s)
  := by
  match s, h with
  | [], _ => rfl
  | .comment _ :: _, _ => rfl
  | .char c :: s, h =>
    have hc : isNamePart c = false := h (.char c) rfl
    rw [splitName, hc, if_neg Bool.false_ne_true]

theorem splitName_cons_of_isNamePart {p : Piece} (h : p.isNamePart = true) :
  ∃ c, ∀ s, splitName (p :: s) = (c :: (splitName s).1, (splitName s).2)
  := by
  cases p with
  | comment _ => cases h
  | char c =>
    use c
    intro s
    have hc : isNamePart c = true := h
    rw [splitName, if_pos hc]

/-- Inside a word there is no layout, so the name is the same. -/
theorem Spaced.splitName (h : Spaced true s t) :
  (splitName t).1 = (splitName s).1 ∧ ∃ inWord, Spaced inWord (splitName s).2 (splitName t).2
  := by
  generalize hword : true = inWord at h
  induction h with
  | @front _ w s hw hhead =>
    have hs := hhead hword.symm
    have ht : ∀ p ∈ (w ++ s).head?, p.isNamePart = false := by
      cases w with
      | nil => exact hs
      | cons q w =>
        rintro p hp
        obtain rfl := Option.some.inj hp
        apply Piece.isNamePart_of_isBlank (hw.blank q List.mem_cons_self)
    rw [splitName_of_head? hs, splitName_of_head? ht]
    exact ⟨rfl, false, Spaced.front hw nofun⟩
  | @cons _ p s t h ih =>
    cases hp : p.isNamePart with
    | true =>
      obtain ⟨c, hc⟩ := splitName_cons_of_isNamePart hp
      obtain ⟨hname, hrest⟩ := ih hp.symm
      rw [hc, hc, hname]
      exact ⟨rfl, hrest⟩
    | false =>
      have hhead : ∀ x : Source, ∀ q ∈ (p :: x).head?, q.isNamePart = false := by
        intro x q hq
        obtain rfl := Option.some.inj hq
        exact hp
      rw [splitName_of_head? (hhead s), splitName_of_head? (hhead t)]
      exact ⟨rfl, false, Spaced.cons p h⟩

/-! ### The arguments -/

/-- Functions that keep a relation keep it for optional values. -/
theorem rel_map {α β γ δ : Type} {R : α → β → Prop} {S : γ → δ → Prop} {f : α → γ} {g : β → δ}
    {x : Option α} {y : Option β} (h : Option.Rel R x y) (hfg : ∀ a b, R a b → S (f a) (g b)) :
  Option.Rel S (x.map f) (y.map g)
  := by
  cases h with
  | none => apply Option.Rel.none
  | some hab => exact Option.Rel.some (hfg _ _ hab)

/-- What one piece does to the arguments that the rest is divided into: it closes them, it is
part of the first, or it is a comma in front of the first. -/
theorem splitArguments_cons (depth : Nat) (p : Piece) :
  (∀ s, splitArguments depth (p :: s) = some ([], []))
    ∨ (∃ depth', ∀ s, splitArguments depth (p :: s)
      = (splitArguments depth' s).map fun (a, rest) => (p :: a, rest))
    ∨ p = .char ',' ∧ ∀ s, splitArguments depth (p :: s)
      = (splitArguments 0 s).map fun (a, rest) => ([], a :: rest)
  := by
  by_cases hopen : p = .char '<'
  · subst hopen
    exact Or.inr (Or.inl ⟨depth + 1, fun s => rfl⟩)
  by_cases hclose : p = .char '>'
  · subst hclose
    cases depth with
    | zero => exact Or.inl fun s => rfl
    | succ depth => exact Or.inr (Or.inl ⟨depth, fun s => rfl⟩)
  by_cases hcomma : p = .char ','
  · subst hcomma
    cases depth with
    | zero => exact Or.inr (Or.inr ⟨rfl, fun s => rfl⟩)
    | succ depth => exact Or.inr (Or.inl ⟨depth + 1, fun s => rfl⟩)
  · right
    left
    use depth
    intro s
    rw [splitArguments]
    · exact hopen
    · exact hclose
    · exact hcomma

/-- The first argument starts where the source does. -/
theorem head?_splitArguments {depth : Nat} {a : Source} {rest : List Source}
    (h : splitArguments depth s = some (a, rest)) :
  ∀ p ∈ a.head?, p ∈ s.head?
  := by
  intro p hp
  cases s with
  | nil => cases h
  | cons q s =>
    rcases splitArguments_cons depth q with hclose | ⟨depth', hkeep⟩ | ⟨-, hcomma⟩
    · rw [hclose] at h
      cases h
      cases hp
    · rw [hkeep] at h
      obtain ⟨found, -, hfound⟩ := Option.map_eq_some_iff.mp h
      obtain ⟨rfl, -⟩ := Prod.mk.inj hfound
      exact hp
    · rw [hcomma] at h
      obtain ⟨found, -, hfound⟩ := Option.map_eq_some_iff.mp h
      obtain ⟨rfl, -⟩ := Prod.mk.inj hfound
      cases hp

/-- The first argument goes on from before the source, the others start after a comma. -/
def SpacedArguments (inWord : Bool) (x y : Source × List Source) : Prop :=
  Spaced inWord x.1 y.1 ∧ List.Forall₂ (Spaced false) x.2 y.2

/-- A source is divided at the same commas when layout is added to it. -/
theorem Spaced.splitArguments (h : Spaced inWord s t) (depth : Nat) :
  Option.Rel (SpacedArguments inWord) (splitArguments depth s) (splitArguments depth t)
  := by
  induction h generalizing depth with
  | @front _ w s hw hword =>
    rw [splitArguments_blank_append hw.blank]
    cases hfound : Source.splitArguments depth s with
    | none => apply Option.Rel.none
    | some found =>
      apply Option.Rel.some
      use Spaced.front hw fun hin p hp => hword hin p (head?_splitArguments hfound p hp)
      apply forall₂_spaced_refl
  | @cons inWord p s t h ih =>
    rcases splitArguments_cons depth p with hclose | ⟨depth', hkeep⟩ | ⟨rfl, hcomma⟩
    · rw [hclose, hclose]
      exact Option.Rel.some ⟨Spaced.refl _ _, List.Forall₂.nil⟩
    · rw [hkeep, hkeep]
      apply rel_map (ih depth')
      rintro ⟨a, rest⟩ ⟨a', rest'⟩ ⟨hfirst, hothers⟩
      exact ⟨Spaced.cons p hfirst, hothers⟩
    · rw [hcomma, hcomma]
      apply rel_map (ih 0)
      rintro ⟨a, rest⟩ ⟨a', rest'⟩ ⟨hfirst, hothers⟩
      exact ⟨Spaced.refl _ _, List.Forall₂.cons hfirst hothers⟩

/-- Layout that is added to a source is added to its arguments. -/
theorem Spaced.arguments? (h : Spaced inWord s t) :
  Option.Rel (List.Forall₂ (Spaced false)) (arguments? s) (arguments? t)
  := by
  induction h with
  | @front _ w s hw _ =>
    rw [arguments?_blank_append hw.blank]
    cases Source.arguments? s with
    | none => apply Option.Rel.none
    | some arguments => exact Option.Rel.some (forall₂_spaced_refl arguments)
  | @cons _ p s t h ih =>
    by_cases hopen : p = .char '<'
    · subst hopen
      rw [Source.arguments?, Source.arguments?]
      apply rel_map (h.splitArguments 0)
      rintro ⟨a, rest⟩ ⟨a', rest'⟩ ⟨hfirst, hothers⟩
      have hempty : rest' = [] ↔ rest = [] := by
        rw [← List.length_eq_zero_iff, ← hothers.length_eq, List.length_eq_zero_iff]
      simp only [hempty, hfirst.literal]
      split
      · apply List.Forall₂.nil
      · apply List.Forall₂.cons hfirst hothers
    by_cases hclose : p = .char '>'
    · subst hclose
      apply Option.Rel.none
    · rw [Source.arguments?, Source.arguments?]
      · exact ih
      · exact hopen
      · exact hclose
      · exact hopen
      · exact hclose

end Source

/-! ### The outermost level -/

/-- Expressions that differ at most in the spacing of one argument. -/
structure Expression.Spaced (e f : Expression) : Prop where
  leading : f.leading = e.leading
  name : f.name = e.name
  arguments : List.Forall₂ (Source.Spaced false) e.arguments f.arguments

/-- A spaced source has the same outermost level, or the same fault. -/
theorem Source.Spaced.ofSource? {inWord : Bool} {s t : Source} (h : Spaced inWord s t) :
  (∃ error, Expression.ofSource? s = .error error ∧ Expression.ofSource? t = .error error)
    ∨ ∃ e f, Expression.ofSource? s = .ok e ∧ Expression.ofSource? t = .ok f ∧ e.Spaced f
  := by
  simp only [Expression.ofSource?, splitAtName_eq]
  have hleading := h.comments_takeWhile fun _ => startsNoName_of_isBlank
  rcases h.dropWhile with ⟨hs, ht⟩ | ⟨p, x, y, hs, ht, hxy⟩
  · left
    rw [hs, ht]
    exact ⟨_, rfl, rfl⟩
  · rw [hs, ht]
    have hnamed : Spaced true (p :: x) (p :: y) := Spaced.cons p hxy
    obtain ⟨hname, inWord', hrest⟩ := hnamed.splitName
    have harguments := hrest.arguments?
    simp only [hname, hleading]
    generalize (Source.splitName (p :: x)).2.arguments? = found,
      (Source.splitName (p :: y)).2.arguments? = found' at harguments ⊢
    cases harguments with
    | none =>
      left
      exact ⟨_, rfl, rfl⟩
    | some harguments =>
      right
      exact ⟨_, _, rfl, rfl, rfl, rfl, harguments⟩

end BladeStyle
