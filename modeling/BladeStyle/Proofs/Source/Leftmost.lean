import BladeStyle.Proofs.Source.Marker

/-!
# The leftmost comments

Which comments a text has can be said of its bytes, without reading it from left to right.  A
comment reaches from its opening marker to the first end after it, and every opening marker lies
in one of the comments.  This determines the comments up to every place, and there are none up to
a place behind a block comment that opens outside them and is not closed.
-/

namespace BladeStyle

open Text

/-! ### The comments of some bytes -/

/-- The bytes up to the body of a comment. -/
def Span.bodyStart (span : Span) : Nat := span.start + 2

/-- The bytes up to the end of the body of a comment; a block comment has its closing marker after
it. -/
def Span.bodyStop (span : Span) : Nat := if span.comment.isBlock then span.stop - 2 else span.stop

/-- Places at which a comment may open. -/
def Opens (bs : List UInt8) (i : Nat) : Prop := OccursAt ['/', '*'] bs i ∨ OccursAt ['/', '/'] bs i

/-- A stretch of some bytes that is a comment.  A block comment ends after the first closing marker
at least two bytes behind its start, a line comment after the first line feed behind its start or,
if there is none, with the last byte. -/
inductive IsComment (bs : List UInt8) : Span → Prop
  | block {start close : Nat} {body : List Char} (opens : OccursAt ['/', '*'] bs start)
      (closes : IsLeast {i | start + 2 ≤ i ∧ OccursAt ['*', '/'] bs i} close)
      (reads : bytes body = bs.extract (start + 2) close) :
    IsComment bs ⟨start, close + 2, .block body⟩
  | line {start lineFeed : Nat} {body : List Char} (opens : OccursAt ['/', '/'] bs start)
      (ends : IsLeast {i | start + 2 ≤ i ∧ OccursAt ['\n'] bs i} lineFeed)
      (reads : bytes body = bs.extract (start + 2) (lineFeed + 1)) :
    IsComment bs ⟨start, lineFeed + 1, .line body⟩
  | lastLine {start : Nat} {body : List Char} (opens : OccursAt ['/', '/'] bs start)
      (endless : ∀ i, start + 2 ≤ i → ¬ OccursAt ['\n'] bs i)
      (reads : bytes body = bs.extract (start + 2) bs.length) :
    IsComment bs ⟨start, bs.length, .line body⟩

/-- A block comment that is not closed. -/
structure Unending (bs : List UInt8) (offset : Nat) : Prop where
  opens : OccursAt ['/', '*'] bs offset
  unclosed : ∀ i, offset + 2 ≤ i → ¬ OccursAt ['*', '/'] bs i

/-- The comments between two places, one after the other, such that none opens outside them. -/
structure Leftmost (bs : List UInt8) (start stop : Nat) (spans : List Span) : Prop where
  comments : ∀ span ∈ spans, IsComment bs span
  within : ∀ span ∈ spans, start ≤ span.start ∧ span.stop ≤ stop
  ordered : spans.Pairwise fun p q => p.stop ≤ q.start
  covered : ∀ i, start ≤ i → i < stop → Opens bs i → Covered spans i

section Bytes

variable {bs : List UInt8} {span p q : Span}

theorem IsComment.opens (h : IsComment bs span) :
  Opens bs span.start
  := by
  cases h with
  | block opens => exact Or.inl opens
  | line opens => exact Or.inr opens
  | lastLine opens => exact Or.inr opens

/-- The body of a comment is in it, and the comment in the text. -/
theorem IsComment.bounds (h : IsComment bs span) :
  span.bodyStart ≤ span.bodyStop ∧ span.bodyStop ≤ span.stop ∧ span.stop ≤ bs.length
  := by
  cases h with
  | block opens closes =>
    obtain ⟨⟨hle, hoccurs⟩, -⟩ := closes
    have hlength : _ + 2 ≤ bs.length := hoccurs.le_length (List.cons_ne_nil _ _)
    simp only [Span.bodyStart, Span.bodyStop, Comment.isBlock, if_true]
    omega
  | line opens ends =>
    obtain ⟨⟨hle, hoccurs⟩, -⟩ := ends
    have hlength : _ + 1 ≤ bs.length := hoccurs.le_length (List.cons_ne_nil _ _)
    simp only [Span.bodyStart, Span.bodyStop, Comment.isBlock, Bool.false_eq_true, if_false]
    omega
  | lastLine opens =>
    have hlength : _ + 2 ≤ bs.length := opens.le_length (List.cons_ne_nil _ _)
    simp only [Span.bodyStart, Span.bodyStop, Comment.isBlock, Bool.false_eq_true, if_false]
    omega

theorem IsComment.start_lt (h : IsComment bs span) :
  span.start < span.stop
  := by
  have hbounds := h.bounds
  simp only [Span.bodyStart] at hbounds
  omega

theorem IsComment.reads (h : IsComment bs span) :
  bytes span.comment.body = bs.extract span.bodyStart span.bodyStop
  := by
  cases h with
  | block _ _ reads => exact reads
  | line _ _ reads => exact reads
  | lastLine _ _ reads => exact reads

theorem not_opens_both {i : Nat} (hblock : OccursAt ['/', '*'] bs i) :
  ¬ OccursAt ['/', '/'] bs i
  := by
  intro hline
  have hprefix := List.prefix_of_prefix_length_le hblock hline (Nat.le_refl 2)
  revert hprefix
  decide

/-- Where a comment starts determines it. -/
theorem IsComment.unique (h : IsComment bs p) (h' : IsComment bs q) (hstart : p.start = q.start) :
  p = q
  := by
  cases h with
  | block opens closes reads =>
    cases h' with
    | block opens' closes' reads' =>
      obtain rfl := hstart
      obtain rfl := closes.unique closes'
      rw [bytes_injective (reads.trans reads'.symm)]
    | line opens' | lastLine opens' =>
      obtain rfl := hstart
      exact absurd opens' (not_opens_both opens)
  | line opens ends reads =>
    cases h' with
    | block opens' =>
      obtain rfl := hstart
      exact absurd opens (not_opens_both opens')
    | line opens' ends' reads' =>
      obtain rfl := hstart
      obtain rfl := ends.unique ends'
      rw [bytes_injective (reads.trans reads'.symm)]
    | lastLine opens' endless =>
      obtain rfl := hstart
      exact absurd ends.1.2 (endless _ ends.1.1)
  | lastLine opens endless reads =>
    cases h' with
    | block opens' =>
      obtain rfl := hstart
      exact absurd opens (not_opens_both opens')
    | line opens' ends' =>
      obtain rfl := hstart
      exact absurd ends'.1.2 (endless _ ends'.1.1)
    | lastLine opens' endless' reads' =>
      obtain rfl := hstart
      rw [bytes_injective (reads.trans reads'.symm)]

theorem Unending.not_isComment {offset : Nat} (h : Unending bs offset)
    (hstart : span.start = offset) :
  ¬ IsComment bs span
  := by
  intro hcomment
  subst hstart
  cases hcomment with
  | block _ closes => exact h.unclosed _ closes.1.1 closes.1.2
  | line opens | lastLine opens => exact not_opens_both h.opens opens

end Bytes

/-! ### The comments are determined -/

namespace Leftmost

variable {bs : List UInt8} {start stop : Nat} {spans : List Span}

/-- Nothing opens before the comments. -/
theorem skip {middle : Nat} (h : Leftmost bs middle stop spans) (hle : start ≤ middle)
    (hnone : ∀ i, start ≤ i → i < middle → ¬ Opens bs i) :
  Leftmost bs start stop spans
  where
  comments := h.comments
  within span hspan := ⟨hle.trans (h.within span hspan).1, (h.within span hspan).2⟩
  ordered := h.ordered
  covered i hi hlt hopens := by
    rcases Nat.lt_or_ge i middle with hbefore | hafter
    · exact absurd hopens (hnone i hi hbefore)
    · exact h.covered i hafter hlt hopens

/-- A comment before the others. -/
theorem cons {span : Span} (hspan : IsComment bs span) (h : Leftmost bs span.stop stop spans)
    (hstop : span.stop ≤ stop) :
  Leftmost bs span.start stop (span :: spans)
  where
  comments := List.forall_mem_cons.mpr ⟨hspan, h.comments⟩
  within other hother := by
    rcases List.mem_cons.mp hother with rfl | hother
    · exact ⟨Nat.le_refl _, hstop⟩
    · obtain ⟨hle, hlast⟩ := h.within other hother
      exact ⟨hspan.start_lt.le.trans hle, hlast⟩
  ordered := List.pairwise_cons.mpr ⟨fun other hother => (h.within other hother).1, h.ordered⟩
  covered i hi hlt hopens := by
    rcases Nat.lt_or_ge i span.stop with hbefore | hafter
    · exact ⟨span, List.mem_cons_self, hi, hbefore⟩
    · obtain ⟨other, hother, hcovers⟩ := h.covered i hafter hlt hopens
      exact ⟨other, List.mem_cons_of_mem span hother, hcovers⟩

theorem nil (bs : List UInt8) (start : Nat) :
  Leftmost bs start start []
  where
  comments := nofun
  within := nofun
  ordered := List.Pairwise.nil
  covered i hi hlt := by omega

theorem tail {span : Span} (h : Leftmost bs start stop (span :: spans)) :
  Leftmost bs span.stop stop spans
  where
  comments := (List.forall_mem_cons.mp h.comments).2
  within other hother :=
    ⟨(List.pairwise_cons.mp h.ordered).1 other hother,
      (h.within other (List.mem_cons_of_mem span hother)).2⟩
  ordered := (List.pairwise_cons.mp h.ordered).2
  covered i hi hlt hopens := by
    have hstart := (h.within span List.mem_cons_self).1
    have hspan := (h.comments span List.mem_cons_self).start_lt
    obtain ⟨other, hother, hcovers⟩ := h.covered i (by omega) hlt hopens
    rcases List.mem_cons.mp hother with rfl | hother
    · omega
    · exact ⟨other, hother, hcovers⟩

/-- The first comment starts where a comment first opens. -/
theorem start_le {first : Span} (h : Leftmost bs start stop (first :: spans)) {i : Nat}
    (hi : start ≤ i) (hlt : i < stop) (hopens : Opens bs i) :
  first.start ≤ i
  := by
  obtain ⟨span, hspan, hle, -⟩ := h.covered i hi hlt hopens
  rcases List.mem_cons.mp hspan with rfl | hspan
  · exact hle
  · have hordered := (List.pairwise_cons.mp h.ordered).1 span hspan
    have hfirst := (h.comments first List.mem_cons_self).start_lt
    omega

/-- The comments up to a place are the first of those up to a later place. -/
theorem exists_append {stop' : Nat} {spans' : List Span} (h : Leftmost bs start stop spans)
    (h' : Leftmost bs start stop' spans') (hstart : start ≤ stop) (hstop : stop ≤ stop') :
  ∃ rest, spans' = spans ++ rest ∧ Leftmost bs stop stop' rest
  := by
  induction spans generalizing start spans' with
  | nil =>
    use spans', rfl
    refine ⟨h'.comments, ?_, h'.ordered, ?_⟩
    · intro span hspan
      obtain ⟨hle, hlast⟩ := h'.within span hspan
      refine ⟨?_, hlast⟩
      by_contra hlt
      obtain ⟨_, hnone, -⟩ := h.covered _ hle (Nat.lt_of_not_le hlt) (h'.comments span hspan).opens
      cases hnone
    · intro i hi
      exact h'.covered i (hstart.trans hi)
  | cons first spans ih =>
    have hfirst := h.comments first List.mem_cons_self
    obtain ⟨hle, hlast⟩ := h.within first List.mem_cons_self
    have hlt : first.start < stop := hfirst.start_lt.trans_le hlast
    cases spans' with
    | nil =>
      obtain ⟨_, hnone, -⟩ := h'.covered _ hle (hlt.trans_le hstop) hfirst.opens
      cases hnone
    | cons first' spans' =>
      -- In both lists the first comment starts at the first place where one opens.
      have hfirst' := h'.comments first' List.mem_cons_self
      obtain ⟨hle', -⟩ := h'.within first' List.mem_cons_self
      have hbefore := h'.start_le hle (hlt.trans_le hstop) hfirst.opens
      have hafter := h.start_le hle' (hbefore.trans_lt hlt) hfirst'.opens
      obtain rfl := hfirst.unique hfirst' (Nat.le_antisymm hafter hbefore)
      obtain ⟨rest, rfl, hrest⟩ := ih h.tail h'.tail hlast
      exact ⟨rest, rfl, hrest⟩

theorem unique {spans' : List Span} (h : Leftmost bs start stop spans)
    (h' : Leftmost bs start stop spans') (hstart : start ≤ stop) :
  spans = spans'
  := by
  obtain ⟨rest, rfl, hrest⟩ := h.exists_append h' hstart (Nat.le_refl stop)
  cases rest with
  | nil => rw [List.append_nil]
  | cons span rest =>
    have hspan := (hrest.comments span List.mem_cons_self).start_lt
    have hwithin := hrest.within span List.mem_cons_self
    omega

/-- There are no comments up to a place behind a block comment that is not closed. -/
theorem stop_le {offset : Nat} {spans' : List Span} (h : Leftmost bs start stop spans)
    (hstart : start ≤ offset) (h' : Leftmost bs start offset spans')
    (hunending : Unending bs offset) :
  stop ≤ offset
  := by
  by_contra hlt
  obtain ⟨rest, -, hrest⟩ := h'.exists_append h hstart (by omega)
  obtain ⟨span, hspan, hle, -⟩ := hrest.covered offset (Nat.le_refl _) (by omega)
    (Or.inl hunending.opens)
  apply hunending.not_isComment _ (hrest.comments span hspan)
  exact Nat.le_antisymm hle (hrest.within span hspan).1

/-- Where all comments are found, none is left unclosed. -/
theorem not_unending {offset : Nat} {spans' : List Span} (h : Leftmost bs start bs.length spans)
    (h' : Leftmost bs start offset spans') (hstart : start ≤ offset) :
  ¬ Unending bs offset
  := by
  intro hunending
  have hlength := hunending.opens.le_length (List.cons_ne_nil _ _)
  have hpos : Source.byteLength ['/', '*'] = 2 := rfl
  have hle := h.stop_le hstart h' hunending
  omega

end Leftmost

end BladeStyle
