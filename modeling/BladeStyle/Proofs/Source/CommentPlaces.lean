import BladeStyle.Proofs.Source.Division
import BladeStyle.Proofs.Source.Leftmost

/-!
# The places of comments

The comments of a source are the leftmost comments of the bytes of its text.  A text that has no
source can be closed: with a closing marker at its end it has one, and the comment that opens last
is the one that was not closed.  The places of a comment, and those of its body, are boundaries
between characters.
-/

namespace BladeStyle

open Text

/-! ### The end of a comment -/

/-- A comment is its body between two markers, of which a line comment lacks the second. -/
theorem Comment.exists_markers (c : Comment) :
  ∃ opening closing, c.written = opening ++ (c.body ++ closing)
    ∧ Source.byteLength opening = 2 ∧ Source.byteLength closing = if c.isBlock then 2 else 0
  := by
  cases c with
  | block body => exact ⟨['/', '*'], ['*', '/'], rfl, rfl, rfl⟩
  | line body => exact ⟨['/', '/'], [], by simp [written, Comment.body], rfl, rfl⟩

/-- A comment takes up the bytes of its body and two for each of its markers. -/
theorem Comment.byteLength_written (c : Comment) :
  Source.byteLength c.written
    = 2 + Source.byteLength c.body + if c.isBlock then 2 else 0
  := by
  obtain ⟨opening, closing, hwritten, hopening, hclosing⟩ := c.exists_markers
  rw [hwritten, Source.byteLength_append, Source.byteLength_append, hopening, hclosing,
    ← Nat.add_assoc]

/-- The body of a block comment has no closing marker, and none arises at its end. -/
theorem Comment.Unclosed.lacks {body : List Char} (h : Comment.Unclosed body) (rest : List Char)
    (hrest : rest.head? ≠ some '/') :
  Lacks ['*', '/'] body rest
  := by
  intro t hne hsuffix hprefix
  have ht : Comment.Unclosed t := List.IsChain.suffix h hsuffix
  obtain ⟨c, t, rfl⟩ := List.exists_cons_of_ne_nil hne
  rw [List.cons_append, List.cons_prefix_cons] at hprefix
  obtain ⟨rfl, hprefix⟩ := hprefix
  cases t with
  | nil =>
    obtain ⟨rest', hrest'⟩ := hprefix
    rw [List.nil_append] at hrest'
    rw [← hrest'] at hrest
    exact hrest rfl
  | cons d t =>
    rw [List.cons_append, List.cons_prefix_cons] at hprefix
    exact (List.isChain_cons_cons.mp ht).1 ⟨rfl, hprefix.1.symm⟩

/-- A marker of one character that is not in a body starts nowhere in it. -/
theorem lacks_of_not_mem {a : Char} {body : List Char} (h : a ∉ body) (rest : List Char) :
  Lacks [a] body rest
  := by
  intro t hne hsuffix hprefix
  obtain ⟨c, t, rfl⟩ := List.exists_cons_of_ne_nil hne
  rw [List.cons_append, List.cons_prefix_cons] at hprefix
  obtain ⟨rfl, -⟩ := hprefix
  exact h (hsuffix.subset List.mem_cons_self)

section Ends

variable {body : List Char}

/-- A block comment stands in the bytes of its text, from its opening marker to its
closing one. -/
theorem isComment_block (h : Comment.Unclosed body) (before : List UInt8) (rest : List Char) :
  IsComment (before ++ bytes (['/', '*'] ++ (body ++ (['*', '/'] ++ rest))))
    ⟨before.length, before.length + 2 + Source.byteLength body + 2, .block body⟩
  := by
  have hstart : (before ++ bytes ['/', '*']).length = before.length + 2 := length_append_bytes _ _
  have hcloses := (h.lacks (['*', '/'] ++ rest) (by simp)).isLeast (by decide) hstart
  have hreads := extract_bytes hstart body (['*', '/'] ++ rest)
  rw [← append_bytes_append] at hcloses hreads
  exact .block (occursAt_length _ _ _) hcloses hreads.symm

/-- A line comment stands in the bytes of its text up to its line feed. -/
theorem isComment_line (h : '\n' ∉ body) (before : List UInt8) (rest : List Char) :
  IsComment (before ++ bytes (['/', '/'] ++ (body ++ (['\n'] ++ rest))))
    ⟨before.length, before.length + 2 + Source.byteLength body + 1, .line (body ++ ['\n'])⟩
  := by
  have hstart : (before ++ bytes ['/', '/']).length = before.length + 2 := length_append_bytes _ _
  have hends := (lacks_of_not_mem h (['\n'] ++ rest)).isLeast (by decide) hstart
  have hreads := extract_bytes hstart (body ++ ['\n']) rest
  rw [← append_bytes_append] at hends hreads
  rw [Source.byteLength_append, ← Nat.add_assoc, List.append_assoc body] at hreads
  exact .line (occursAt_length _ _ _) hends hreads.symm

/-- A line comment without a line feed stands in the bytes of its text up to their end. -/
theorem isComment_lastLine (h : '\n' ∉ body) (before : List UInt8) :
  IsComment (before ++ bytes (['/', '/'] ++ body))
    ⟨before.length, (before ++ bytes (['/', '/'] ++ body)).length, .line body⟩
  := by
  have hstart : (before ++ bytes ['/', '/']).length = before.length + 2 := length_append_bytes _ _
  have hendless : ∀ i, before.length + 2 ≤ i
      → ¬ OccursAt ['\n'] (before ++ bytes (['/', '/'] ++ body)) i := by
    intro i hi
    rw [append_bytes_append]
    exact (lacks_of_not_mem h []).not_occursAt (by decide) hstart hi
  have hreads := extract_bytes hstart body []
  rw [List.append_nil, ← hstart, ← length_append_bytes, ← append_bytes_append, hstart] at hreads
  exact .lastLine (occursAt_length _ _ _) hendless hreads.symm

end Ends

/-- A comment that ends where it can end first is a comment of the bytes around it. -/
theorem isComment_written {c : Comment} {rest : List Char} (hwhole : (Piece.comment c).IsWhole)
    (hline : ∀ body, c = .line body → rest ≠ [] → body.getLast? = some '\n')
    (before : List UInt8) :
  IsComment (before ++ bytes (c.written ++ rest))
    ⟨before.length, before.length + Source.byteLength c.written, c⟩
  := by
  cases c with
  | block body =>
    have hwritten : (Comment.block body).written ++ rest
        = ['/', '*'] ++ (body ++ (['*', '/'] ++ rest)) := by
      simp [Comment.written]
    have hstop : before.length + Source.byteLength (Comment.block body).written
        = before.length + 2 + Source.byteLength body + 2 := by
      rw [Comment.byteLength_written, ← Nat.add_assoc, ← Nat.add_assoc]
      rfl
    rw [hwritten, hstop]
    apply isComment_block hwhole
  | line body =>
    have hstop : before.length + Source.byteLength (Comment.line body).written
        = before.length + 2 + Source.byteLength body := by
      rw [Comment.byteLength_written, ← Nat.add_assoc, ← Nat.add_assoc]
      rfl
    by_cases hlast : body.getLast? = some '\n'
    · obtain ⟨front, rfl⟩ := List.getLast?_eq_some_iff.mp hlast
      rw [Piece.IsWhole, List.dropLast_concat] at hwhole
      have hwritten : (Comment.line (front ++ ['\n'])).written ++ rest
          = ['/', '/'] ++ (front ++ (['\n'] ++ rest)) := by
        simp [Comment.written]
      rw [hwritten, hstop, Source.byteLength_append, ← Nat.add_assoc]
      apply isComment_line hwhole
    · obtain rfl : rest = [] := by
        by_contra hrest
        exact hlast (hline body rfl hrest)
      rw [List.append_nil, ← length_append_bytes]
      apply isComment_lastLine (Source.not_mem_of_not_mem_dropLast hwhole hlast)

/-! ### The comments of a source -/

/-- Nothing opens in a character that is not a slash before a star or another slash. -/
theorem not_opens_char {c : Char} {cs : List Char}
    (h : c = '/' → ∀ d ∈ cs.head?, d ≠ '*' ∧ d ≠ '/') (before : List UInt8) {i : Nat}
    (hle : before.length ≤ i) (hlt : i < before.length + c.utf8Size) :
  ¬ Opens (before ++ bytes (c :: cs)) i
  := by
  obtain ⟨j, rfl⟩ := Nat.exists_eq_add_of_le hle
  rw [Nat.add_lt_add_iff_left] at hlt
  rw [Opens, occursAt_append, occursAt_append, occursAt_cons_iff (by decide) hlt,
    occursAt_cons_iff (by decide) hlt]
  have hstart : ∀ d, ['/', d] <+: c :: cs → c = '/' ∧ d ∈ cs.head? := by
    rintro d ⟨rest, hrest⟩
    obtain ⟨rfl, rfl⟩ := List.cons.inj hrest
    exact ⟨rfl, rfl⟩
  rintro (⟨-, hblock⟩ | ⟨-, hline⟩)
  · obtain ⟨hc, hd⟩ := hstart _ hblock
    exact (h hc _ hd).1 rfl
  · obtain ⟨hc, hd⟩ := hstart _ hline
    exact (h hc _ hd).2 rfl

namespace Source

/-- The first character of a text belongs to the first piece of its source. -/
theorem exists_of_mem_head?_written {s : Source} {d : Char} (h : d ∈ (written s).head?) :
  ∃ q ∈ s.head?, d ∈ q.written.head?
  := by
  cases s with
  | nil => cases h
  | cons q s =>
    rw [head?_written_cons] at h
    exact ⟨q, rfl, h⟩

/-- The comments of a stretch of a legible source are the leftmost ones of its bytes.  What follows
the stretch only has to start like the rest of the source. -/
theorem leftmost_spansFrom {s t : Source} (h : Legible (s ++ t)) (rest : List Char)
    (hrest : rest.head? = t.written.head?) (before : List UInt8) :
  Leftmost (before ++ bytes (s.written ++ rest)) before.length
    (before.length + byteLength s.written) (s.spansFrom before.length)
  := by
  -- The pieces that have been passed are taken over into the bytes before the stretch.
  induction s generalizing before with
  | nil => apply Leftmost.nil
  | cons p s ih =>
    obtain ⟨hwhole, hprecedes, hs⟩ := legible_cons.mp h
    have hnext : ∀ d ∈ (written s ++ rest).head?, ∃ q, p.Precedes q ∧ d ∈ q.written.head? := by
      intro d hd
      rw [List.head?_append, hrest, ← List.head?_append, ← written_append] at hd
      obtain ⟨q, hq, hdq⟩ := exists_of_mem_head?_written hd
      exact ⟨q, hprecedes q hq, hdq⟩
    have hsplit : before ++ bytes (written (p :: s) ++ rest)
        = (before ++ bytes p.written) ++ bytes (written s ++ rest) := by
      rw [written_cons, List.append_assoc, append_bytes_append]
    have hstop : before.length + byteLength (written (p :: s))
        = (before ++ bytes p.written).length + byteLength (written s) := by
      rw [written_cons, byteLength_append, length_append_bytes, Nat.add_assoc]
    have htail := ih hs (before ++ bytes p.written)
    rw [← hsplit, ← hstop, length_append_bytes] at htail
    cases p with
    | char c =>
      apply htail.skip (Nat.le_add_right _ _)
      intro i hi hlt
      apply not_opens_char _ before hi hlt
      intro hc d hd
      obtain ⟨q, hprecedes, hdq⟩ := hnext d hd
      exact hprecedes.slash (congrArg Piece.char hc) d hdq
    | comment c =>
      have hspan : IsComment (before ++ bytes (written (.comment c :: s) ++ rest))
          ⟨before.length, before.length + byteLength c.written, c⟩ := by
        rw [written_cons, List.append_assoc]
        apply isComment_written hwhole
        rintro body rfl hne
        obtain ⟨d, ds, hds⟩ := List.exists_cons_of_ne_nil hne
        obtain ⟨q, hprecedes, -⟩ := hnext d (by rw [hds]; rfl)
        exact hprecedes.line body rfl
      apply Leftmost.cons hspan htail
      rw [hstop, length_append_bytes]
      apply Nat.le_add_right

/-! ### A block comment that is not closed -/

/-- A text in which a block comment is not closed is read when a closing marker is put after it. -/
theorem exists_read_closed {r : Reading} {cs : List Char} (h : (read r cs).unclosed = true) :
  ∃ body, read r (cs ++ ['*', '/'])
    = ⟨(read r cs).pieces ++ [.comment (.block body)], false⟩
  := by
  fun_induction read r cs with
  | case1 | case8 => cases h
  | case2 cs ih | case3 cs ih => exact ih h
  | case4 c cs hblock hline ih =>
    obtain ⟨body, hbody⟩ := ih h
    use body
    rw [List.cons_append, read_outside_cons, hbody]
    · rfl
    · -- A slash at the end would open a comment with the marker, but after it nothing is unclosed.
      rintro rfl d hd
      cases cs with
      | nil => cases h
      | cons e cs =>
        obtain rfl := Option.some.inj hd
        constructor
        · rintro rfl
          exact hblock cs rfl rfl
        · rintro rfl
          exact hline cs rfl rfl
  | case5 body =>
    use body.reverse
    rfl
  | case6 body cs ih =>
    obtain ⟨body', hbody⟩ := ih h
    use body'
    simp [read, hbody, Found.after]
  | case7 body c cs hclose ih =>
    obtain ⟨body', hbody⟩ := ih h
    use body'
    rw [List.cons_append, read]
    · exact hbody
    · rintro ds rfl hds
      cases cs with
      | nil => cases hds
      | cons d cs =>
        obtain ⟨rfl, -⟩ := List.cons.inj hds
        exact hclose cs rfl rfl
  | case9 body cs ih =>
    obtain ⟨body', hbody⟩ := ih h
    use body'
    simp [read, hbody, Found.after]
  | case10 body c cs hc ih =>
    obtain ⟨body', hbody⟩ := ih h
    use body'
    rw [List.cons_append, read]
    · exact hbody
    · exact hc

/-- A text without a source is that of a source with an opening marker and a body after it. -/
theorem exists_of_ofChars?_eq_error {cs : List Char} {offset : Nat}
    (h : ofChars? cs = .error offset) :
  ∃ s body, Legible (s ++ [.comment (.block body)]) ∧ cs = written s ++ '/' :: '*' :: body
    ∧ offset = byteLength (written s)
  := by
  simp only [ofChars?] at h
  split at h
  · next hopen =>
    obtain ⟨body, hbody⟩ := exists_read_closed hopen
    have hclosed : ofChars? (cs ++ ['*', '/'])
        = .ok ((read .outside cs).pieces ++ [.comment (.block body)]) := by
      simp [ofChars?, hbody]
    obtain ⟨hlegible, hwritten⟩ := ofChars?_eq_ok_iff.mp hclosed
    use (read .outside cs).pieces, body, hlegible
    refine ⟨?_, (Except.error.inj h).symm⟩
    have hsame : cs ++ ['*', '/']
        = (written (read .outside cs).pieces ++ '/' :: '*' :: body) ++ ['*', '/'] := by
      rw [← hwritten]
      simp [Piece.written, Comment.written]
    exact List.append_cancel_right hsame
  · cases h

/-- An opening marker without a closing one opens a comment that does not end. -/
theorem unending_of_unclosed {body : List Char} (h : Comment.Unclosed body)
    (before : List UInt8) :
  Unending (before ++ bytes ('/' :: '*' :: body)) before.length
  where
  opens := occursAt_length before ['/', '*'] body
  unclosed i hi := by
    have hstart : (before ++ bytes ['/', '*']).length = before.length + 2 := length_append_bytes _ _
    have hbytes := append_bytes_append before ['/', '*'] body
    rw [List.cons_append, List.singleton_append] at hbytes
    rw [hbytes]
    exact (h.lacks [] (by simp)).not_occursAt (by decide) hstart hi

/-- A source has the leftmost comments of all bytes of its text. -/
theorem leftmost_of_ofText?_eq_ok {text : String} {s : Source} (h : ofText? text = .ok s) :
  Leftmost (bytes text.toList) 0 (bytes text.toList).length s.spans
  := by
  obtain ⟨hlegible, hwritten⟩ := ofText?_eq_ok_iff.mp h
  rw [← List.append_nil s] at hlegible
  have hleftmost := leftmost_spansFrom hlegible [] rfl []
  rw [List.append_nil, hwritten, List.nil_append, List.length_nil, Nat.zero_add,
    ← length_bytes] at hleftmost
  exact hleftmost

/-- A text without a source has the leftmost comments of what is before a block comment that is not
closed. -/
theorem exists_of_ofText?_eq_error {text : String} {e : SyntaxError} (h : ofText? text = .error e) :
  ∃ offset found, e = .mismatchedBlockComment offset ∧ Leftmost (bytes text.toList) 0 offset found
    ∧ Unending (bytes text.toList) offset
  := by
  rw [ofText?] at h
  cases hchars : ofChars? text.toList with
  | ok s =>
    rw [hchars] at h
    cases h
  | error offset =>
    rw [hchars] at h
    obtain rfl := Except.error.inj h
    obtain ⟨s, body, hlegible, htext, rfl⟩ := exists_of_ofChars?_eq_error hchars
    have hleftmost := leftmost_spansFrom hlegible ('/' :: '*' :: body) rfl []
    rw [List.nil_append, List.length_nil, Nat.zero_add, ← htext] at hleftmost
    refine ⟨_, _, rfl, hleftmost, ?_⟩
    have hbody : Comment.Unclosed body := hlegible.whole (.comment (.block body)) (by simp)
    rw [htext, bytes_append, ← length_bytes]
    apply unending_of_unclosed hbody

/-! ### Boundaries between characters -/

/-- The bytes of a front part of a text end between two characters. -/
theorem isValid_byteLength {text : String} {cs ds : List Char} (h : text.toList = cs ++ ds) :
  String.Pos.Raw.IsValid text ⟨byteLength cs⟩
  := by
  apply String.Pos.Raw.isValid_iff_exists_append.mpr
  use String.ofList cs, String.ofList ds
  constructor
  · rw [← String.ofList_append, ← h, String.ofList_toList]
  · have hsize : (String.ofList cs).utf8ByteSize = byteLength cs := by
      rw [← length_bytes, ← List.size_toByteArray, String.utf8ByteSize, String.toByteArray_ofList]
      rfl
    rw [String.rawEndPos, hsize]

/-- The span of a comment in a source is where the pieces before it end. -/
theorem exists_of_mem_spansFrom {start : Nat} {s : Source} {span : Span}
    (h : span ∈ spansFrom start s) :
  ∃ before after, s = before ++ .comment span.comment :: after
    ∧ span.start = start + byteLength (written before)
    ∧ span.stop = span.start + byteLength span.comment.written
  := by
  induction s generalizing start with
  | nil => cases h
  | cons p s ih =>
    have hlater : span ∈ spansFrom (start + byteLength p.written) s →
        ∃ before after, p :: s = before ++ .comment span.comment :: after
          ∧ span.start = start + byteLength (written before)
          ∧ span.stop = span.start + byteLength span.comment.written := by
      intro hmem
      obtain ⟨before, after, rfl, hstart, hstop⟩ := ih hmem
      refine ⟨p :: before, after, rfl, ?_, hstop⟩
      rw [hstart, written_cons, byteLength_append, Nat.add_assoc]
    cases p with
    | char c => exact hlater h
    | comment c =>
      rcases List.mem_cons.mp h with rfl | h
      · exact ⟨[], s, rfl, rfl, rfl⟩
      · exact hlater h

/-- A comment starts and ends between characters, and so does its body. -/
theorem isValid_of_mem_spans {text : String} {s : Source} {span : Span} (hs : ofText? text = .ok s)
    (h : span ∈ s.spans) :
  ∀ n ∈ [span.start, span.bodyStart, span.bodyStop, span.stop], String.Pos.Raw.IsValid text ⟨n⟩
  := by
  obtain ⟨before, after, hsource, hstart, hstop⟩ := exists_of_mem_spansFrom h
  obtain ⟨opening, closing, hwritten, hopening, hclosing⟩ := span.comment.exists_markers
  have htext : text.toList
      = written before ++ (opening ++ (span.comment.body ++ (closing ++ written after))) := by
    rw [← (ofText?_eq_ok_iff.mp hs).2, hsource, written_append, written_cons, Piece.written,
      hwritten, List.append_assoc, List.append_assoc]
  rw [Nat.zero_add] at hstart
  have hbodyStart : span.bodyStart = byteLength (written before ++ opening) := by
    rw [Span.bodyStart, hstart, byteLength_append, hopening]
  have hend : span.stop
      = byteLength (written before ++ opening ++ span.comment.body ++ closing) := by
    simp only [hstop, hstart, hwritten, byteLength_append, Nat.add_assoc]
  have hbodyStop : span.bodyStop
      = byteLength (written before ++ opening ++ span.comment.body) := by
    rw [Span.bodyStop, hend, byteLength_append _ closing, hclosing]
    split
    · rw [Nat.add_sub_cancel]
    · rw [Nat.add_zero]
  intro n hn
  simp only [List.mem_cons, List.not_mem_nil, or_false] at hn
  rcases hn with rfl | rfl | rfl | rfl
  · rw [hstart]
    apply isValid_byteLength htext
  · rw [hbodyStart]
    apply isValid_byteLength
    rw [htext, List.append_assoc]
  · rw [hbodyStop]
    apply isValid_byteLength
    rw [htext, List.append_assoc, List.append_assoc]
  · rw [hend]
    apply isValid_byteLength
    rw [htext, List.append_assoc, List.append_assoc, List.append_assoc]

/-! ### The comments of a text -/

/-- A text has the comments that are found leftmost in its bytes, up to their end. -/
theorem map_spans_eq_ok_iff {text : String} {found : List Span} :
  (ofText? text).map spans = .ok found
    ↔ Leftmost (bytes text.toList) 0 (bytes text.toList).length found
  := by
  cases hs : ofText? text with
  | ok s =>
    have hleftmost := leftmost_of_ofText?_eq_ok hs
    constructor
    · intro h
      obtain rfl := Except.ok.inj h
      exact hleftmost
    · intro h
      rw [h.unique hleftmost (Nat.zero_le _)]
      rfl
  | error e =>
    obtain ⟨offset, before, rfl, hbefore, hunending⟩ := exists_of_ofText?_eq_error hs
    constructor
    · nofun
    · intro h
      exact absurd hunending (h.not_unending hbefore (Nat.zero_le _))

/-- A text is refused if behind its leftmost comments one opens that does not end, and the
error says where it opens. -/
theorem map_spans_eq_error_iff {text : String} {e : SyntaxError} :
  (ofText? text).map spans = .error e
    ↔ ∃ offset found, e = .mismatchedBlockComment offset
      ∧ Leftmost (bytes text.toList) 0 offset found ∧ Unending (bytes text.toList) offset
  := by
  cases hs : ofText? text with
  | ok s =>
    constructor
    · nofun
    · rintro ⟨offset, found, rfl, hfound, hunending⟩
      exact absurd hunending ((leftmost_of_ofText?_eq_ok hs).not_unending hfound (Nat.zero_le _))
  | error e' =>
    obtain ⟨offset', found', rfl, hfound', hunending'⟩ := exists_of_ofText?_eq_error hs
    constructor
    · intro h
      obtain rfl := Except.error.inj h
      exact ⟨offset', found', rfl, hfound', hunending'⟩
    · rintro ⟨offset, found, rfl, hfound, hunending⟩
      rw [Nat.le_antisymm (hfound.stop_le (Nat.zero_le _) hfound' hunending')
        (hfound'.stop_le (Nat.zero_le _) hfound hunending)]
      rfl

/-- The comments of a text are the leftmost comments of its bytes.  A text has no source exactly if
after some of them a block comment opens that is not closed, and this is the place that is
reported.  The comments and their bodies are slices of the text between characters. -/
theorem comments_are_leftmost (text : String) :
  (∀ found, (ofText? text).map spans = .ok found
      ↔ Leftmost (bytes text.toList) 0 (bytes text.toList).length found)
    ∧ (∀ e, (ofText? text).map spans = .error e
      ↔ ∃ offset found, e = .mismatchedBlockComment offset
        ∧ Leftmost (bytes text.toList) 0 offset found ∧ Unending (bytes text.toList) offset)
    ∧ ∀ found, (ofText? text).map spans = .ok found → ∀ span ∈ found,
      (∀ n ∈ [span.start, span.bodyStart, span.bodyStop, span.stop],
        String.Pos.Raw.IsValid text ⟨n⟩)
      ∧ span.bodyStart ≤ span.bodyStop
      ∧ bytes span.comment.body = (bytes text.toList).extract span.bodyStart span.bodyStop
  := by
  refine ⟨fun found => map_spans_eq_ok_iff, fun e => map_spans_eq_error_iff, ?_⟩
  intro found hfound span hspan
  have hcomment := (map_spans_eq_ok_iff.mp hfound).comments span hspan
  obtain ⟨s, hs, rfl⟩ := exists_of_map_eq_ok hfound
  exact ⟨isValid_of_mem_spans hs hspan, hcomment.bounds.1, hcomment.reads⟩

/-- A block comment between overlapping markers, and a line comment with a letter of two bytes. -/
def overlappingMarkers : String := "é/*//*/*/ // é /*\n/"

/-- A block comment that could only be closed by its own opening marker. -/
def unclosedComment : String := "// é /*\n /*/"

theorem comments_are_leftmost_overlappingMarkers :
  Leftmost (bytes overlappingMarkers.toList) 0 (bytes overlappingMarkers.toList).length
      [⟨2, 8, .block ['/', '/']⟩, ⟨11, 20, .line [' ', 'é', ' ', '/', '*', '\n']⟩]
    ∧ String.Pos.Raw.IsValid overlappingMarkers ⟨20⟩
    ∧ Unending (bytes unclosedComment.toList) 10
  := by
  have hfound : (ofText? overlappingMarkers).map spans
      = .ok [⟨2, 8, .block ['/', '/']⟩, ⟨11, 20, .line [' ', 'é', ' ', '/', '*', '\n']⟩] := by
    decide +kernel
  have hfails : (ofText? unclosedComment).map spans = .error (.mismatchedBlockComment 10) := by
    decide +kernel
  obtain ⟨hok, -, hslices⟩ := comments_are_leftmost overlappingMarkers
  obtain ⟨-, herror, -⟩ := comments_are_leftmost unclosedComment
  obtain ⟨hvalid, -⟩ := hslices _ hfound ⟨11, 20, .line [' ', 'é', ' ', '/', '*', '\n']⟩ (by simp)
  obtain ⟨offset, _, hoffset, -, hunending⟩ := (herror _).mp hfails
  obtain rfl := SyntaxError.mismatchedBlockComment.inj hoffset
  exact ⟨(hok _).mp hfound, hvalid 20 (by decide), hunending⟩

end Source

end BladeStyle
