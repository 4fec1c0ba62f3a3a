import BladeStyle.Proofs.Parsing.Rewriting
import BladeStyle.Proofs.Style.WrittenComment

/-!
# Sources of laid-out texts

The comment above a node and the comment before a literal are read back as one comment
piece and a layout character, and say what is kept of the comment.  Indenting a text is a
neutral rewriting of its source that leaves what its comments say.
-/

namespace BladeStyle

namespace Source

open Comment Text

/-! ### Comments -/

/-- The source of a comment whose text stands between two equal layout characters, one of
which follows the comment as well. -/
def commented (w : Char) (shown : List Char) : Source :=
  if shown = [] then [] else [.comment (.block (w :: (shown ++ [w]))), .char w]

variable {w : Char} {shown : List Char}

/-- A comment with layout around what it shows is blank. -/
theorem blank_commented (hw : isLayout w = true) (shown : List Char) :
  (commented w shown).Blank
  := by
  intro p hp
  rw [commented] at hp
  split at hp
  · cases hp
  · rcases List.mem_pair.mp hp with rfl | rfl
    · rfl
    · exact hw

/-- A comment that shows no closing marker is read back wherever it stands. -/
theorem isPart_commented (hw : isLayout w = true) (hshown : Unclosed shown) :
  IsPart (commented w shown)
  where
  stable p hp := by
    rw [commented] at hp
    split at hp
    · cases hp
    · rcases List.mem_pair.mp hp with rfl | rfl
      · have hstar : w ≠ '*' := ne_of_isLayout hw rfl
        have hslash : w ≠ '/' := ne_of_isLayout hw rfl
        apply List.IsChain.cons
        · apply List.IsChain.append hshown (List.isChain_singleton w)
          rintro c - d hd ⟨-, rfl⟩
          exact hslash (by simpa using hd)
        · rintro d - ⟨h, -⟩
          exact hstar h
      · apply ne_of_isLayout hw rfl
  balanced := Balanced.of_blank false (blank_commented hw shown)

/-- What a comment shows is read back tidied. -/
theorem joinedText_commented (hw : isLayout w = true) (shown : List Char) :
  joinedText (comments (commented w shown)) = tidy shown
  := by
  rw [commented]
  split
  · next h =>
    rw [h]
    rfl
  · have hwhite := isWhiteSpace_of_isLayout hw
    have htidy : tidy (w :: (shown ++ [w])) = tidy shown := by
      rw [tidy_cons_white hwhite, tidy_concat_white hwhite]
    simp only [comments, List.filterMap_cons, Piece.comment?, List.filterMap_nil, joinedText,
      List.map_cons, List.map_nil, Comment.text, Comment.body, htidy]
    by_cases h : tidy shown = [] <;> simp [h]

/-- The source of the comment above a node. -/
def nodeComment (layout : Layout) (comment : String) : Source :=
  match layout with
  | .multiline => commented '\n' (Layout.shown .multiline comment.toList)
  | .compact => commented ' ' (Layout.shown .compact comment.toList)

/-- The source of the comment before a literal. -/
def literalComment (layout : Layout) (comment : String) : Source :=
  commented ' ' (layout.shown comment.toList)

/-- The source of the comment above a node is written as the layout writes that comment. -/
theorem written_nodeComment (layout : Layout) (comment : String) :
  written (nodeComment layout comment) = layout.nodeComment comment.toList
  := by
  rw [Layout.nodeComment_eq]
  by_cases h : comment.toList = []
  · cases layout <;> simp [nodeComment, commented, h]
  · cases layout <;>
      simp [nodeComment, commented, h, Piece.written, Comment.written, Layout.blockComment,
        Layout.inlineComment]

/-- The source of the comment before a literal is written as the layout writes that
comment. -/
theorem written_literalComment (layout : Layout) (comment : String) :
  written (literalComment layout comment) = layout.literalComment comment.toList
  := by
  rw [Layout.literalComment_eq]
  by_cases h : comment.toList = []
  · simp [literalComment, commented, h]
  · simp [literalComment, commented, h, Piece.written, Comment.written, Layout.inlineComment]

/-- The comment above a node does not count as code. -/
theorem blank_nodeComment (layout : Layout) (comment : String) :
  (nodeComment layout comment).Blank
  := by
  cases layout <;> apply blank_commented rfl

/-- The comment before a literal does not count as code. -/
theorem blank_literalComment (layout : Layout) (comment : String) :
  (literalComment layout comment).Blank
  := blank_commented rfl _

/-- The comment above a node is read back wherever it stands. -/
theorem isPart_nodeComment (layout : Layout) (comment : String) :
  IsPart (nodeComment layout comment)
  := by
  cases layout <;> apply isPart_commented rfl (Layout.unclosed_shown _ _)

/-- The comment before a literal is read back wherever it stands. -/
theorem isPart_literalComment (layout : Layout) (comment : String) :
  IsPart (literalComment layout comment)
  := isPart_commented rfl (Layout.unclosed_shown _ _)

/-- Of the comment above a node the text is read back that the layout keeps. -/
theorem joinedText_nodeComment (layout : Layout) (comment : String) :
  String.ofList (joinedText (comments (nodeComment layout comment))) = layout.kept comment
  := by
  rw [Layout.kept_eq]
  cases layout <;> simp [nodeComment, joinedText_commented, isLayout]

/-- Of the comment before a literal the text is read back that the layout keeps. -/
theorem joinedText_literalComment (layout : Layout) (comment : String) :
  String.ofList (joinedText (comments (literalComment layout comment))) = layout.kept comment
  := by
  rw [Layout.kept_eq, literalComment, joinedText_commented rfl]

end Source

/-! ### Indentation -/

namespace Comment

/-- The comment with every line but the first indented by a tab. -/
def indented : Comment → Comment
  | block body => block (Layout.indented body)
  | line body => line (Layout.indented body)

/-- An indented comment has the same text, as the tabs are trimmed with the lines. -/
theorem text_indented (c : Comment) :
  c.indented.text = c.text
  := by
  cases c <;> apply Layout.tidy_indented

end Comment

namespace Piece

/-- The piece with a tab after every line feed. -/
def indented : Piece → Source
  | char c => Source.plain (Layout.indented [c])
  | comment c => [comment c.indented]

/-- Indentation leaves what is not blank as it is, and what is blank it keeps blank. -/
theorem neutral_indented :
  Neutral indented
  := by
  constructor
  · intro p hp
    obtain ⟨c, rfl, hc⟩ := Source.char_of_isBlank_eq_false hp
    have hne : c ≠ '\n' := by
      rintro rfl
      cases hc
    simp [indented, Layout.indented, hne, Source.plain]
  · intro p hp
    cases p with
    | comment c => simp [indented, Source.Blank, isBlank]
    | char c =>
      rw [indented, Layout.indented_cons]
      split
      · simp [Source.plain, Source.Blank, isBlank, Text.isLayout]
      · simpa [Source.plain, Source.Blank] using hp

/-- Indentation leaves the texts of comments as they are. -/
theorem recommenting_indented :
  Recommenting indented id
  where
  toNeutral := neutral_indented
  text s := by
    have hcomments : Source.comments (s.flatMap indented) = s.comments.map Comment.indented := by
      induction s with
      | nil => rfl
      | cons p s ih =>
        rw [List.flatMap_cons, Source.comments_append, ih]
        cases p with
        | char c => rw [indented, Source.comments_plain]; rfl
        | comment c => rfl
    have htext : Comment.text ∘ Comment.indented = Comment.text := funext Comment.text_indented
    rw [hcomments, Comment.joinedText, List.map_map, htext]
    rfl

/-- A piece that is read back wherever it stands is so when it is indented. -/
theorem isStable_indented {p : Piece} (h : p.IsStable) :
  ∀ q ∈ p.indented, q.IsStable
  := by
  match p, h with
  | char c, h =>
    apply Source.isStable_plain
    rw [Layout.indented_cons]
    have hne : '/' ≠ c := Ne.symm h
    split <;> simp [hne]
  | comment (.block body), h =>
    intro q hq
    obtain rfl := List.mem_singleton.mp hq
    apply Layout.unclosed_indented h

end Piece

/-- Indenting the pieces of a source indents its text. -/
theorem Source.written_indented {s : Source} (h : ∀ p ∈ s, p.IsStable) :
  written (s.flatMap Piece.indented) = Layout.indented s.written
  := by
  induction s with
  | nil => rfl
  | cons p s ih =>
    obtain ⟨hp, hs⟩ := List.forall_mem_cons.mp h
    rw [List.flatMap_cons, written_append, ih hs, written_cons, Layout.indented_append]
    congr 1
    match p, hp with
    | .char c, _ => simp [Piece.indented, Piece.written]
    | .comment (.block body), _ =>
      simp [Piece.indented, Comment.indented, Piece.written, Comment.written,
        Layout.indented_cons]

end BladeStyle
