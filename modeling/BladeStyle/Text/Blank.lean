/-!
# Blank characters

Two classes of characters count as blank.  `isWhiteSpace` is the Unicode property
White_Space, which decides what is trimmed off a comment.  `isLayout` holds the four
characters that may stand anywhere between the parts of an expression.
-/

namespace BladeStyle.Text

/-- The Unicode property White_Space. -/
def isWhiteSpace (c : Char) : Bool :=
  let n := c.toNat
  (0x0009 ≤ n && n ≤ 0x000d) || n == 0x0020 || n == 0x0085 || n == 0x00a0 || n == 0x1680
    || (0x2000 ≤ n && n ≤ 0x200a) || n == 0x2028 || n == 0x2029 || n == 0x202f || n == 0x205f
    || n == 0x3000

/-- Space, tab, line feed and carriage return. -/
def isLayout (c : Char) : Bool := c = ' ' || c = '\t' || c = '\n' || c = '\r'

/-- The text without the white space at its end. -/
def trimRight : List Char → List Char
  | [] => []
  | c :: cs =>
    match trimRight cs with
    | [] => if isWhiteSpace c then [] else [c]
    | ds => c :: ds

/-- The text without the white space at its two ends. -/
def trim (cs : List Char) : List Char := trimRight (cs.dropWhile isWhiteSpace)

theorem isWhiteSpace_of_isLayout {c : Char} (h : isLayout c = true) :
  isWhiteSpace c = true
  := by
  simp only [isLayout, Bool.or_eq_true, decide_eq_true_eq] at h
  rcases h with ((rfl | rfl) | rfl) | rfl <;> decide

end BladeStyle.Text
