import BladeStyle.Source.Comment

/-!
# Pieces of a source text

A source text is a sequence of pieces: characters and comments.  `Source.ofChars?`
finds them from left to right.  Whichever opener comes first claims the text up to its
end, so that `//` inside a block comment, or `/*` inside a line comment, is part of its
body.  A line comment may run to the end of the text, a block comment has to be closed.
`Source.spans` gives the place of every comment, counted in bytes of UTF-8.
-/

namespace BladeStyle

/-- A part of a source text. -/
inductive Piece where
  | char (c : Char)
  | comment (c : Comment)
  deriving DecidableEq

namespace Piece

/-- A piece as it stands in the source. -/
def written : Piece → List Char
  | char c => [c]
  | comment c => c.written

def char? : Piece → Option Char
  | char c => some c
  | comment _ => none

def comment? : Piece → Option Comment
  | char _ => none
  | comment c => some c

end Piece

/-- A text that has been divided into characters and comments. -/
abbrev Source := List Piece

/-- The place of a comment: the bytes before it and the bytes up to its end. -/
structure Span where
  start : Nat
  stop : Nat
  comment : Comment
  deriving DecidableEq

namespace Source

/-- The text that a source divides. -/
def written (s : Source) : List Char := s.flatMap Piece.written

/-- The characters outside comments. -/
def chars (s : Source) : List Char := s.filterMap Piece.char?

def comments (s : Source) : List Comment := s.filterMap Piece.comment?

/-- The number of bytes of a text in UTF-8. -/
def byteLength (cs : List Char) : Nat := cs.foldr (fun c n => c.utf8Size + n) 0

/-- The places of the comments of a source that starts at byte `start`. -/
def spansFrom (start : Nat) : Source → List Span
  | [] => []
  | p :: s =>
    let stop := start + byteLength p.written
    match p with
    | .char _ => spansFrom stop s
    | .comment c => ⟨start, stop, c⟩ :: spansFrom stop s

/-- The places of the comments, in order. -/
def spans (s : Source) : List Span := spansFrom 0 s

/-- What a reader from left to right is in the middle of, with the body read so far, its
last character first. -/
inductive Reading where
  | outside
  | block (read : List Char)
  | line (read : List Char)

/-- What a reader found: the pieces, and whether a block comment after them is not
closed. -/
structure Found where
  pieces : Source
  unclosed : Bool

/-- The findings with a piece before them. -/
def Found.after (p : Piece) (f : Found) : Found := { f with pieces := p :: f.pieces }

/-- Divides the rest of a text into pieces. -/
def read : Reading → List Char → Found
  | .outside, [] => ⟨[], false⟩
  | .outside, '/' :: '*' :: cs => read (.block []) cs
  | .outside, '/' :: '/' :: cs => read (.line []) cs
  | .outside, c :: cs => (read .outside cs).after (.char c)
  | .block _, [] => ⟨[], true⟩
  | .block body, '*' :: '/' :: cs => (read .outside cs).after (.comment (.block body.reverse))
  | .block body, c :: cs => read (.block (c :: body)) cs
  | .line body, [] => ⟨[.comment (.line body.reverse)], false⟩
  | .line body, '\n' :: cs => (read .outside cs).after (.comment (.line ('\n' :: body).reverse))
  | .line body, c :: cs => read (.line (c :: body)) cs

/-- Divides a text into pieces, or gives the byte at which a block comment starts that is
not closed. -/
def ofChars? (cs : List Char) : Except Nat Source :=
  let found := read .outside cs
  if found.unclosed then .error (byteLength found.pieces.written) else .ok found.pieces

end Source

end BladeStyle
