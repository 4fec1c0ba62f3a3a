import BladeStyle.Text.Blank

/-!
# Lines

A text is the list of its lines, joined by line feeds.  `tidy` is the form in which the
text of a comment is kept: every line is trimmed, and so is the whole, which drops the
blank lines before and after it.
-/

namespace BladeStyle.Text

/-- The parts of a text between the separators, at least one. -/
def parts (separator : Char) : List Char → List (List Char)
  | [] => [[]]
  | c :: cs =>
    if c = separator then [] :: parts separator cs
    else
      match parts separator cs with
      | [] => [[c]]
      | l :: ls => (c :: l) :: ls

/-- The lines of a text. -/
def lines (cs : List Char) : List (List Char) := parts '\n' cs

/-- The lines of `ls` with a line feed between any two. -/
def unlines (ls : List (List Char)) : List Char := ['\n'].intercalate ls

theorem parts_ne_nil (separator : Char) (cs : List Char) :
  parts separator cs ≠ []
  := by
  cases cs with
  | nil => simp [parts]
  | cons c cs =>
    simp only [parts]
    split
    · simp
    · split <;> simp

theorem intercalate_parts (separator : Char) (cs : List Char) :
  [separator].intercalate (parts separator cs) = cs
  := by
  induction cs with
  | nil => rfl
  | cons c cs ih =>
    simp only [parts]
    split
    case isTrue h =>
      obtain ⟨l, ls, e⟩ := List.exists_cons_of_ne_nil (parts_ne_nil separator cs)
      rw [e] at ih ⊢
      simp [List.intercalate, List.intersperse, h, ← ih]
    case isFalse =>
      split
      case h_1 e => exact absurd e (parts_ne_nil separator cs)
      case h_2 l ls e =>
        rw [e] at ih
        rw [← ih]
        cases ls <;> simp [List.intercalate, List.intersperse]

@[simp]
theorem unlines_lines (cs : List Char) :
  unlines (lines cs) = cs
  := intercalate_parts '\n' cs

/-- The text with every line trimmed and without blank lines at its ends. -/
def tidy (cs : List Char) : List Char := trim (unlines ((lines cs).map trim))

end BladeStyle.Text
