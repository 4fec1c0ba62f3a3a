import BladeStyle.Source.Expression
import Mathlib.Data.List.TakeDrop

/-!
# Blank pieces

Layout characters and comments mean nothing between the parts of an expression.  Each
function that takes an expression apart passes over them: before the name, before the
brackets, inside an argument and at the end of the text.
-/

namespace BladeStyle

/-- A piece that means nothing between the parts of an expression. -/
def Piece.isBlank : Piece → Bool
  | char c => Text.isLayout c
  | comment _ => true

namespace Source

/-- A source of blank pieces. -/
def Blank (s : Source) : Prop := ∀ p ∈ s, p.isBlank = true

/-- A source of layout characters. -/
def Padding (s : Source) : Prop := ∀ p ∈ s, ∃ c, p = .char c ∧ Text.isLayout c = true

theorem Padding.nil :
  Padding []
  := List.forall_mem_nil _

/-- Layout without comments is blank. -/
theorem Padding.blank {s : Source} (h : s.Padding) :
  s.Blank
  := by
  intro p hp
  obtain ⟨c, rfl, hc⟩ := h p hp
  apply hc

@[simp]
theorem comments_append (s t : Source) :
  comments (s ++ t) = comments s ++ comments t
  := by
  simp [comments]

/-- There are no comments in padding. -/
theorem Padding.comments {s : Source} (h : s.Padding) :
  s.comments = []
  := by
  apply List.filterMap_eq_nil_iff.mpr
  intro p hp
  obtain ⟨c, rfl, -⟩ := h p hp
  rfl

/-- What is not blank is a character other than layout. -/
theorem char_of_isBlank_eq_false {p : Piece} (h : p.isBlank = false) :
  ∃ c, p = .char c ∧ Text.isLayout c = false
  := by
  cases p with
  | char c => exact ⟨c, rfl, h⟩
  | comment c => cases h

/-- A layout character is none of those that stand for something. -/
theorem ne_of_isLayout {c d : Char} (h : Text.isLayout c = true) (hd : Text.isLayout d = false) :
  c ≠ d
  := by
  rintro rfl
  rw [h] at hd
  cases hd

/-! ### The characters of a literal -/

@[simp]
theorem literal_append (s t : Source) :
  literal (s ++ t) = literal s ++ literal t
  := by
  simp [literal, chars]

/-- Of what is blank a literal takes nothing. -/
theorem literal_of_blank {s : Source} (h : s.Blank) :
  literal s = []
  := by
  apply List.filter_eq_nil_iff.mpr
  intro c hc
  obtain ⟨p, hp, hpc⟩ := List.mem_filterMap.mp hc
  cases p with
  | comment _ => cases hpc
  | char d =>
    obtain rfl : d = c := by simpa [Piece.char?] using hpc
    have hblank := h _ hp
    simpa [Piece.isBlank] using hblank

/-! ### Before the name -/

/-- No layout character starts a name. -/
theorem isNameStart_of_isLayout {c : Char} (h : Text.isLayout c = true) :
  isNameStart c = false
  := by
  simp only [Text.isLayout, Bool.or_eq_true, decide_eq_true_eq] at h
  rcases h with ((rfl | rfl) | rfl) | rfl <;> rfl

/-- No layout character stands in a name. -/
theorem isNamePart_of_isLayout {c : Char} (h : Text.isLayout c = true) :
  isNamePart c = false
  := by
  simp only [Text.isLayout, Bool.or_eq_true, decide_eq_true_eq] at h
  rcases h with ((rfl | rfl) | rfl) | rfl <;> rfl

/-- A piece before which no source is divided at a name. -/
def startsNoName (p : Piece) : Bool := !(p.char?.any isNameStart)

/-- Neither layout nor a comment starts a name. -/
theorem startsNoName_of_isBlank {p : Piece} (h : p.isBlank = true) :
  startsNoName p = true
  := by
  cases p with
  | comment _ => rfl
  | char c => simp [startsNoName, Piece.char?, isNameStart_of_isLayout h]

/-- The source before a name is the longest front part in which no name starts. -/
theorem splitAtName_eq (s : Source) :
  splitAtName s = (s.takeWhile startsNoName, s.dropWhile startsNoName)
  := List.span_eq_takeWhile_dropWhile startsNoName s

/-- No name is divided off before layout or a comment. -/
theorem splitName_blank_cons {p : Piece} (h : p.isBlank = true) (s : Source) :
  splitName (p :: s) = ([], p :: s)
  := by
  cases p with
  | comment _ => rfl
  | char c => simp [splitName, isNamePart_of_isLayout h]

/-! ### Between the brackets -/

/-- What is blank goes to the argument that follows it. -/
theorem splitArguments_blank_append {w : Source} (h : w.Blank) (depth : Nat) (s : Source) :
  splitArguments depth (w ++ s)
    = (splitArguments depth s).map fun (a, rest) => (w ++ a, rest)
  := by
  induction w with
  | nil => simp
  | cons p w ih =>
    obtain ⟨hp, hw⟩ := List.forall_mem_cons.mp h
    rw [List.cons_append, splitArguments, ih hw, Option.map_map]
    · rfl
    · rintro rfl
      cases hp
    · rintro rfl
      cases hp
    · rintro rfl
      cases hp

/-- What is blank does not close its brackets. -/
theorem splitArguments_blank {w : Source} (h : w.Blank) (depth : Nat) :
  splitArguments depth w = none
  := by
  have happend := splitArguments_blank_append h depth []
  rwa [List.append_nil] at happend

/-- Blank pieces after the closing bracket, or without one, change nothing. -/
theorem splitArguments_append_blank {w : Source} (h : w.Blank) (depth : Nat) (s : Source) :
  splitArguments depth (s ++ w) = splitArguments depth s
  := by
  fun_induction splitArguments depth s with
  | case1 => apply splitArguments_blank h
  | case2 depth s ih => rw [List.cons_append, splitArguments, ih]
  | case3 s => rw [List.cons_append, splitArguments]
  | case4 s depth ih => rw [List.cons_append, splitArguments, ih]
  | case5 s ih => rw [List.cons_append, splitArguments, ih]
  | case6 s depth ih => rw [List.cons_append, splitArguments, ih]
  | case7 depth p s _ _ _ ih => rw [List.cons_append, splitArguments, ih] <;> assumption

/-- What is blank before the opening bracket does not change the arguments. -/
theorem arguments?_blank_append {w : Source} (h : w.Blank) (s : Source) :
  arguments? (w ++ s) = arguments? s
  := by
  induction w with
  | nil => rfl
  | cons p w ih =>
    obtain ⟨hp, hw⟩ := List.forall_mem_cons.mp h
    rw [List.cons_append, arguments?, ih hw]
    · rintro rfl
      cases hp
    · rintro rfl
      cases hp

/-- What is blank behind the closing bracket does not change the arguments. -/
theorem arguments?_append_blank {w : Source} (h : w.Blank) (s : Source) :
  arguments? (s ++ w) = arguments? s
  := by
  fun_induction arguments? s with
  | case1 =>
    have happend := arguments?_blank_append h []
    rwa [List.append_nil] at happend
  | case2 s => rw [List.cons_append, arguments?, splitArguments_append_blank h]
  | case3 s => rw [List.cons_append, arguments?]
  | case4 p s _ _ ih => rw [List.cons_append, arguments?, ih] <;> assumption

/-- What is blank at the end of a source is not part of the name. -/
theorem splitName_append_blank {w : Source} (h : w.Blank) (s : Source) :
  splitName (s ++ w) = ((splitName s).1, (splitName s).2 ++ w)
  := by
  fun_induction splitName s with
  | case1 c s hc name rest hs ih =>
    rw [hs] at ih
    simp [splitName, hc, ih]
  | case2 c s hc => simp [splitName, hc]
  | case3 s hs =>
    cases s with
    | nil =>
      cases w with
      | nil => rfl
      | cons p w => apply splitName_blank_cons (h p (by simp))
    | cons p s =>
      cases p with
      | char c => exact absurd rfl (hs c s)
      | comment c => rfl

end Source

end BladeStyle
