import BladeStyle.Text.Lines

/-!
# Comments

A comment is written `/* … */` or `// …` up to the end of the line.  Its text is its
body in tidy form, so that a comment which was indented on the way out reads back
unchanged.
-/

namespace BladeStyle

/-- A comment of a source text, with the characters between its markers.  The body of a
line comment ends with the line feed, if there is one. -/
inductive Comment where
  | block (body : List Char)
  | line (body : List Char)
  deriving DecidableEq

namespace Comment

/-- The characters after the opening marker and before the closing one. -/
def body : Comment → List Char
  | block body | line body => body

def isBlock : Comment → Bool
  | block _ => true
  | line _ => false

/-- A comment as it stands in the source. -/
def written : Comment → List Char
  | block body => '/' :: '*' :: (body ++ ['*', '/'])
  | line body => '/' :: '/' :: body

/-- What a comment says. -/
def text (c : Comment) : List Char := Text.tidy c.body

/-- What several comments say, one below the other; comments that say nothing are left
out. -/
def joinedText (cs : List Comment) : List Char :=
  Text.unlines ((cs.map text).filter (· ≠ []))

end Comment

end BladeStyle
