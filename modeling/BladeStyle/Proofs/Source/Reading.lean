import BladeStyle.Source.Piece
import Mathlib.Data.List.Chain

/-!
# Reading pieces

`Source.ofChars?` divides a text into pieces whose written form is the text.  What it gives
is legible: comments end where they are closed first, and no slash before a piece opens a
comment.  The other way round, a legible sequence of pieces is read back from its written form.
Hence a stretch of a source that was read is read back as well, and so is the source after
every comment has been replaced by a space.
-/

namespace BladeStyle

/-- A comment body without closing marker. -/
def Comment.Unclosed (cs : List Char) : Prop := cs.IsChain fun c d => ¬ (c = '*' ∧ d = '/')

namespace Piece

/-- A piece that is read back wherever it stands. -/
def IsStable : Piece → Prop
  | char c => c ≠ '/'
  | comment (.block body) => Comment.Unclosed body
  | comment (.line _) => False

/-- The piece with a space in place of a comment. -/
def blanked : Piece → Piece
  | char c => char c
  | comment _ => char ' '

/-- A piece that ends where it can end first: a block comment at a closing marker, and a line
comment at a line feed. -/
def IsWhole : Piece → Prop
  | char _ => True
  | comment (.block body) => Comment.Unclosed body
  | comment (.line body) => '\n' ∉ body.dropLast

/-- Two pieces that stay apart: no slash opens a comment with what follows it, and a line
comment that something follows ends with a line feed. -/
structure Precedes (p q : Piece) : Prop where
  slash : p = .char '/' → ∀ c ∈ q.written.head?, c ≠ '*' ∧ c ≠ '/'
  line : ∀ body, p = .comment (.line body) → body.getLast? = some '\n'

/-- Every piece takes up some of the text. -/
theorem written_ne_nil (p : Piece) :
  p.written ≠ []
  := by
  cases p with
  | char c => apply List.cons_ne_nil
  | comment c => cases c <;> apply List.cons_ne_nil

end Piece

namespace Source

@[simp]
theorem written_nil :
  written []
    = []
  := rfl

@[simp]
theorem written_cons (p : Piece) (s : Source) :
  written (p :: s) = p.written ++ written s
  := rfl

/-- Two sources one after the other are written one after the other. -/
@[simp]
theorem written_append (s t : Source) :
  written (s ++ t) = written s ++ written t
  := by
  simp [written]

theorem head?_written_cons (p : Piece) (s : Source) :
  (written (p :: s)).head? = p.written.head?
  := by
  rw [written_cons, List.head?_append_of_ne_nil _ p.written_ne_nil]

/-! ### The text of what was read -/

/-- What a reader has read of the comment it is in. -/
def Reading.opened : Reading → List Char
  | outside => []
  | block body => '/' :: '*' :: body.reverse
  | line body => '/' :: '/' :: body.reverse

/-- Of a text that ends outside comments nothing is lost: its pieces are written as the
text, with what was read of the comment before. -/
theorem written_read {r : Reading} {cs : List Char} (h : (read r cs).unclosed = false) :
  written (read r cs).pieces = r.opened ++ cs
  := by
  fun_induction read r cs with
  | case1 => rfl
  | case2 cs ih => simpa [Reading.opened] using ih h
  | case3 cs ih => simpa [Reading.opened] using ih h
  | case4 c cs _ _ ih =>
    have hrest := ih h
    simpa [Found.after, Piece.written, Reading.opened] using hrest
  | case5 => cases h
  | case6 body cs ih =>
    have hrest := ih h
    simpa [Found.after, Piece.written, Comment.written, Reading.opened] using hrest
  | case7 body c cs _ ih => simpa [Reading.opened] using ih h
  | case8 body => simp [Piece.written, Comment.written, Reading.opened]
  | case9 body cs ih =>
    have hrest := ih h
    simpa [Found.after, Piece.written, Comment.written, Reading.opened] using hrest
  | case10 body c cs _ ih => simpa [Reading.opened] using ih h

/-- The source of a text is written as that text. -/
theorem written_of_ofChars? {cs : List Char} {s : Source} (h : ofChars? cs = .ok s) :
  written s = cs
  := by
  simp only [ofChars?] at h
  split at h
  · cases h
  · next hclosed =>
    obtain rfl := Except.ok.inj h
    apply written_read (r := .outside) (by simpa using hclosed)

/-- The first piece of what is read starts as the text does. -/
theorem head?_written_of_read {r : Reading} {cs : List Char} (h : (read r cs).unclosed = false)
    {q : Piece} (hq : q ∈ (read r cs).pieces.head?) :
  q.written.head? = (r.opened ++ cs).head?
  := by
  obtain ⟨s, hs⟩ := List.head?_eq_some_iff.mp hq
  rw [← written_read h, hs, head?_written_cons]

/-! ### Legible sources -/

/-- A source whose pieces are those of its text. -/
structure Legible (s : Source) : Prop where
  whole : ∀ p ∈ s, p.IsWhole
  chain : s.IsChain Piece.Precedes

theorem legible_nil :
  Legible []
  := ⟨List.forall_mem_nil _, List.isChain_nil⟩

/-- A source is legible piece by piece: each is whole and stays apart from the next one. -/
theorem legible_cons {p : Piece} {s : Source} :
  Legible (p :: s) ↔ p.IsWhole ∧ (∀ q ∈ s.head?, p.Precedes q) ∧ Legible s
  := by
  constructor
  · rintro ⟨hwhole, hchain⟩
    obtain ⟨hp, hs⟩ := List.forall_mem_cons.mp hwhole
    obtain ⟨hprecedes, hchain⟩ := List.isChain_cons.mp hchain
    exact ⟨hp, hprecedes, hs, hchain⟩
  · rintro ⟨hp, hprecedes, hs⟩
    exact ⟨List.forall_mem_cons.mpr ⟨hp, hs.whole⟩, List.isChain_cons.mpr ⟨hprecedes, hs.chain⟩⟩

/-- A stretch of a legible source is legible. -/
theorem Legible.of_isInfix {s t : Source} (h : Legible t) (hs : s <:+: t) :
  Legible s
  where
  whole p hp := h.whole p (hs.subset hp)
  chain := h.chain.infix hs

/-- Pieces that are read back wherever they stand are legible. -/
theorem legible_of_isStable {s : Source} (h : ∀ p ∈ s, p.IsStable) :
  Legible s
  := by
  induction s with
  | nil => apply legible_nil
  | cons p s ih =>
    obtain ⟨hp, hs⟩ := List.forall_mem_cons.mp h
    apply legible_cons.mpr
    match p, hp with
    | .char c, hp =>
      refine ⟨trivial, fun q _ => ⟨?_, nofun⟩, ih hs⟩
      intro hc
      exact absurd (Piece.char.inj hc) hp
    | .comment (.block body), hp => exact ⟨hp, fun q _ => ⟨nofun, nofun⟩, ih hs⟩

/-! ### What is read is legible -/

/-- A comment that a reader is in has not been closed. -/
def Reading.IsOpen : Reading → List Char → Prop
  | outside, _ => True
  | block body, cs => Comment.Unclosed body.reverse ∧ (body.head? = some '*' → cs.head? ≠ some '/')
  | line body, _ => '\n' ∉ body

/-- The pieces of a text are legible if the text ends outside comments. -/
theorem legible_read {r : Reading} {cs : List Char} (h : (read r cs).unclosed = false)
    (hr : r.IsOpen cs) :
  (read r cs).pieces.Legible
  := by
  fun_induction read r cs with
  | case1 => apply legible_nil
  | case2 cs ih =>
    apply ih h
    exact ⟨List.isChain_nil, nofun⟩
  | case3 cs ih =>
    apply ih h
    exact List.not_mem_nil
  | case4 c cs hblock hline ih =>
    apply legible_cons.mpr
    refine ⟨trivial, ?_, ih h trivial⟩
    intro q hq
    constructor
    · intro hc d hd
      obtain rfl := Piece.char.inj hc
      rw [head?_written_of_read h hq] at hd
      obtain ⟨ds, rfl⟩ := List.head?_eq_some_iff.mp hd
      constructor
      · rintro rfl
        exact hblock ds rfl rfl
      · rintro rfl
        exact hline ds rfl rfl
    · nofun
  | case5 => cases h
  | case6 body cs ih =>
    apply legible_cons.mpr
    exact ⟨hr.1, fun q _ => ⟨nofun, nofun⟩, ih h trivial⟩
  | case7 body c cs hclose ih =>
    apply ih h
    obtain ⟨hunclosed, hlast⟩ := hr
    constructor
    · rw [List.reverse_cons]
      apply List.IsChain.append hunclosed (List.isChain_singleton c)
      rintro d hd e he ⟨rfl, rfl⟩
      rw [List.getLast?_reverse] at hd
      rw [List.head?_singleton, Option.mem_some_iff] at he
      exact hlast hd (by rw [he]; rfl)
    · intro hc hcs
      obtain rfl := Option.some.inj hc
      obtain ⟨ds, rfl⟩ := List.head?_eq_some_iff.mp hcs
      exact hclose ds rfl rfl
  | case8 body =>
    apply legible_cons.mpr
    refine ⟨?_, nofun, legible_nil⟩
    intro hmem
    exact hr (List.mem_reverse.mp (List.dropLast_subset _ hmem))
  | case9 body cs ih =>
    apply legible_cons.mpr
    refine ⟨?_, ?_, ih h trivial⟩
    · rw [Piece.IsWhole, List.reverse_cons, List.dropLast_concat, List.mem_reverse]
      exact hr
    · intro q hq
      refine ⟨nofun, ?_⟩
      intro body' hbody
      obtain rfl := Comment.line.inj (Piece.comment.inj hbody)
      rw [List.reverse_cons, List.getLast?_concat]
  | case10 body c cs hc ih =>
    apply ih h
    intro hmem
    rcases List.mem_cons.mp hmem with rfl | hmem
    · exact hc rfl
    · exact hr hmem

/-! ### What is legible is read -/

/-- A character that opens no comment is read as itself. -/
theorem read_outside_cons {c : Char} (cs : List Char)
    (h : c = '/' → ∀ d ∈ cs.head?, d ≠ '*' ∧ d ≠ '/') :
  read .outside (c :: cs) = (read .outside cs).after (.char c)
  := by
  rw [read]
  · rintro ds rfl rfl
    exact absurd rfl (h rfl '*' rfl).1
  · rintro ds rfl rfl
    exact absurd rfl (h rfl '/' rfl).2

/-- A block comment is read up to the marker that closes it. -/
theorem read_block {body : List Char} (h : Comment.Unclosed body) (before cs : List Char) :
  read (.block before) (body ++ '*' :: '/' :: cs)
    = (read .outside cs).after (.comment (.block (before.reverse ++ body)))
  := by
  induction body generalizing before with
  | nil => simp [read]
  | cons c body ih =>
    obtain ⟨hc, hbody⟩ := List.isChain_cons.mp h
    rw [List.cons_append, read]
    · simp [ih hbody]
    · rintro ds rfl hds
      cases body with
      | nil => simp at hds
      | cons d body =>
        obtain rfl : d = '/' := by simpa using congrArg List.head? hds
        exact hc '/' rfl ⟨rfl, rfl⟩

/-- A line comment is read up to the line feed that ends it. -/
theorem read_line {body : List Char} (h : '\n' ∉ body) (before cs : List Char) :
  read (.line before) (body ++ '\n' :: cs)
    = (read .outside cs).after (.comment (.line (before.reverse ++ body ++ ['\n'])))
  := by
  induction body generalizing before with
  | nil => simp [read]
  | cons c body ih =>
    rw [List.mem_cons, not_or] at h
    rw [List.cons_append, read]
    · simp [ih h.2]
    · exact Ne.symm h.1

/-- Without a line feed a line comment is read up to the end of the text. -/
theorem read_line_end {body : List Char} (h : '\n' ∉ body) (before : List Char) :
  read (.line before) body = ⟨[.comment (.line (before.reverse ++ body))], false⟩
  := by
  induction body generalizing before with
  | nil => simp [read]
  | cons c body ih =>
    rw [List.mem_cons, not_or] at h
    rw [read]
    · simp [ih h.2]
    · exact Ne.symm h.1

theorem not_mem_of_not_mem_dropLast {α : Type} {a : α} {xs : List α} (h : a ∉ xs.dropLast)
    (hlast : xs.getLast? ≠ some a) :
  a ∉ xs
  := by
  rcases List.eq_nil_or_concat' xs with rfl | ⟨front, b, rfl⟩
  · exact List.not_mem_nil
  · rw [List.dropLast_concat] at h
    rw [List.getLast?_concat, ne_eq, Option.some_inj] at hlast
    simp [h, Ne.symm hlast]

/-- The text of a legible source is read as the same pieces again. -/
theorem Legible.read_written {s : Source} (h : s.Legible) :
  read .outside s.written = ⟨s, false⟩
  := by
  induction s with
  | nil => rfl
  | cons p s ih =>
    obtain ⟨hp, hprecedes, hs⟩ := legible_cons.mp h
    match p, hp with
    | .char c, _ =>
      have hread := read_outside_cons (written s) (show c = '/' → _ by
        rintro rfl d hd
        cases s with
        | nil => cases hd
        | cons q s =>
          rw [head?_written_cons] at hd
          apply (hprecedes q rfl).slash rfl d hd)
      simp only [written_cons, Piece.written, List.singleton_append, hread, ih hs, Found.after]
    | .comment (.block body), hp =>
      simp only [written_cons, Piece.written, Comment.written, List.cons_append,
        List.append_assoc, List.nil_append]
      rw [read, read_block hp, ih hs]
      simp [Found.after]
    | .comment (.line body), hp =>
      simp only [written_cons, Piece.written, Comment.written, List.cons_append]
      rw [read]
      by_cases hlast : body.getLast? = some '\n'
      · obtain ⟨front, rfl⟩ := List.getLast?_eq_some_iff.mp hlast
        rw [Piece.IsWhole, List.dropLast_concat] at hp
        rw [List.append_assoc, List.singleton_append, read_line hp, ih hs]
        simp [Found.after]
      · cases s with
        | cons q s => exact absurd ((hprecedes q rfl).line body rfl) hlast
        | nil =>
          rw [written_nil, List.append_nil, read_line_end (not_mem_of_not_mem_dropLast hp hlast)]
          simp

/-- A source is read from a text exactly if it is legible and the text is its written form. -/
theorem ofChars?_eq_ok_iff {cs : List Char} {s : Source} :
  ofChars? cs = .ok s ↔ s.Legible ∧ s.written = cs
  := by
  constructor
  · intro h
    refine ⟨?_, written_of_ofChars? h⟩
    simp only [ofChars?] at h
    split at h
    · cases h
    · next hclosed =>
      obtain rfl := Except.ok.inj h
      apply legible_read (eq_false_of_ne_true hclosed) trivial
  · rintro ⟨h, rfl⟩
    simp [ofChars?, h.read_written]

/-- A source of pieces that are read back wherever they stand comes back from its text. -/
theorem ofChars?_written {s : Source} (h : ∀ p ∈ s, p.IsStable) :
  ofChars? s.written = .ok s
  := ofChars?_eq_ok_iff.mpr ⟨legible_of_isStable h, rfl⟩

/-! ### Blanked comments -/

/-- The source with a space in place of every comment. -/
def blanked (s : Source) : Source := s.map Piece.blanked

/-- With spaces in place of its comments a legible source stays legible. -/
theorem Legible.blanked {s : Source} (h : s.Legible) :
  s.blanked.Legible
  where
  whole p hp := by
    obtain ⟨q, -, rfl⟩ := List.mem_map.mp hp
    cases q <;> trivial
  chain := by
    apply (List.isChain_map _).mpr
    apply List.IsChain.imp _ h.chain
    intro p q hpq
    constructor
    · intro hp c hc
      cases p with
      | comment c => cases hp
      | char d =>
        cases q with
        | char e => apply hpq.slash hp c hc
        | comment e =>
          obtain rfl := Option.some.inj hc
          decide
    · intro body hbody
      cases p <;> cases hbody

/-- A text with spaces in place of its comments is read as its source with spaces in their
place. -/
theorem ofChars?_written_blanked {cs : List Char} {s : Source} (h : ofChars? cs = .ok s) :
  ofChars? s.blanked.written = .ok s.blanked
  := by
  apply ofChars?_eq_ok_iff.mpr
  exact ⟨(ofChars?_eq_ok_iff.mp h).1.blanked, rfl⟩

end Source

end BladeStyle
