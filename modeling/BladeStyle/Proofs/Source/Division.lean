import BladeStyle.Proofs.Except
import BladeStyle.Proofs.Source.Bytes

/-!
# The division of a text into arguments

An expression with arguments is an exact division of its text: a part before the name, the
name, a part without brackets, and the arguments between brackets with commas between them.
Brackets match within each argument, its literal is what is left of its bytes without layout
and comments, and read by itself it has the comments that lie in it.
-/

namespace BladeStyle

open Text

/-! ### Brackets and commas -/

/-- A text inside `depth` brackets that it closes: brackets match, none is closed before it is
opened, and every comma lies inside brackets. -/
structure Bracketed (depth : Nat) (cs : List Char) : Prop where
  opened : ∀ before after, cs = before ++ after → before.count '>' ≤ depth + before.count '<'
  balanced : cs.count '>' = depth + cs.count '<'
  inside : ∀ before after, cs = before ++ ',' :: after →
    before.count '>' < depth + before.count '<'

namespace Bracketed

theorem nil :
  Bracketed 0 []
  where
  opened before after h := by
    obtain ⟨rfl, -⟩ := List.append_eq_nil_iff.mp h.symm
    apply Nat.le_refl
  balanced := rfl
  inside before after h := by
    obtain ⟨-, h⟩ := List.append_eq_nil_iff.mp h.symm
    cases h

/-- A character in front of a text changes the number of brackets that are open. -/
theorem cons {depth depth' : Nat} {c : Char} {cs : List Char} (h : Bracketed depth' cs)
    (hdepth : [c].count '>' + depth' = depth + [c].count '<') (hcomma : c = ',' → 0 < depth) :
  Bracketed depth (c :: cs)
  where
  opened before after hcs := by
    rcases List.cons_eq_append_iff.mp hcs with ⟨rfl, -⟩ | ⟨rest, rfl, hrest⟩
    · apply Nat.zero_le
    · have hle := h.opened rest after hrest
      rw [← List.singleton_append, List.count_append, List.count_append]
      omega
  balanced := by
    have heq := h.balanced
    rw [← List.singleton_append, List.count_append, List.count_append]
    omega
  inside before after hcs := by
    rcases List.cons_eq_append_iff.mp hcs with ⟨rfl, hcons⟩ | ⟨rest, rfl, hrest⟩
    · apply hcomma (List.cons.inj hcons).1.symm
    · have hlt := h.inside rest after hrest
      rw [← List.singleton_append, List.count_append, List.count_append]
      omega

end Bracketed

namespace Source

@[simp]
theorem chars_cons_char (c : Char) (s : Source) :
  chars (.char c :: s) = c :: s.chars
  := rfl

@[simp]
theorem chars_cons_comment (c : Comment) (s : Source) :
  chars (.comment c :: s) = s.chars
  := rfl

/-- Brackets match in what is divided at commas, up to the brackets that were open before. -/
theorem bracketed_of_splitArguments {depth : Nat} {s x : Source} {xs : List Source}
    (h : splitArguments depth s = some (x, xs)) :
  Bracketed depth x.chars ∧ ∀ y ∈ xs, Bracketed 0 y.chars
  := by
  fun_induction splitArguments depth s generalizing x xs with
  | case1 => cases h
  | case2 depth s ih =>
    obtain ⟨y, hy, rfl⟩ := exists_of_map_cons h
    obtain ⟨hfirst, hrest⟩ := ih hy
    refine ⟨hfirst.cons ?_ ?_, hrest⟩
    · apply Nat.zero_add
    · intro hc
      cases hc
  | case3 s =>
    obtain ⟨rfl, rfl⟩ := Prod.mk.inj (Option.some.inj h)
    exact ⟨Bracketed.nil, List.forall_mem_nil _⟩
  | case4 s depth ih =>
    obtain ⟨y, hy, rfl⟩ := exists_of_map_cons h
    obtain ⟨hfirst, hrest⟩ := ih hy
    refine ⟨hfirst.cons ?_ ?_, hrest⟩
    · apply Nat.add_comm 1 depth
    · intro hc
      cases hc
  | case5 s ih =>
    obtain ⟨⟨y, ys⟩, hy, heq⟩ := Option.map_eq_some_iff.mp h
    obtain ⟨rfl, rfl⟩ := Prod.mk.inj heq
    obtain ⟨hfirst, hrest⟩ := ih hy
    exact ⟨Bracketed.nil, List.forall_mem_cons.mpr ⟨hfirst, hrest⟩⟩
  | case6 s depth ih =>
    obtain ⟨y, hy, rfl⟩ := exists_of_map_cons h
    obtain ⟨hfirst, hrest⟩ := ih hy
    refine ⟨hfirst.cons ?_ fun _ => depth.succ_pos, hrest⟩
    exact Nat.zero_add _
  | case7 depth p s hopen hclose hcomma ih =>
    obtain ⟨y, hy, rfl⟩ := exists_of_map_cons h
    obtain ⟨hfirst, hrest⟩ := ih hy
    refine ⟨?_, hrest⟩
    cases p with
    | comment c => exact hfirst
    | char c =>
      simp only [Piece.char.injEq] at hopen hclose hcomma
      have hcount : ∀ d, ¬ c = d → [c].count d = 0 := by
        intro d hd
        apply List.count_eq_zero.mpr
        rw [List.mem_singleton]
        exact Ne.symm hd
      apply hfirst.cons _ fun hc => absurd hc hcomma
      rw [hcount _ hopen, hcount _ hclose]
      exact Nat.zero_add _

/-- A source without literal has nothing but layout and comments. -/
theorem blank_of_literal_eq_nil {s : Source} (h : s.literal = []) :
  s.Blank
  := by
  intro p hp
  cases p with
  | comment c => rfl
  | char c =>
    have hmem : c ∈ s.chars := List.mem_filterMap.mpr ⟨.char c, hp, rfl⟩
    have hlayout := List.filter_eq_nil_iff.mp h c hmem
    rw [Bool.not_eq_true', Bool.not_eq_false] at hlayout
    apply hlayout

end Source

/-! ### Arguments by themselves -/

/-- The place of a comment in a text with `n` more bytes before it. -/
def Span.shift (n : Nat) (span : Span) : Span :=
  { span with start := n + span.start, stop := n + span.stop }

namespace Source

/-- Comments lie further on by as many bytes as stand in front of the source. -/
theorem spansFrom_add (n start : Nat) (s : Source) :
  s.spansFrom (n + start) = (s.spansFrom start).map (Span.shift n)
  := by
  induction s generalizing start with
  | nil => rfl
  | cons p s ih => cases p <;> simp [spansFrom, Nat.add_assoc, ih, Span.shift]

/-- A text has one source, the legible one that is written as it. -/
theorem ofText?_eq_ok_iff {text : String} {s : Source} :
  ofText? text = .ok s ↔ s.Legible ∧ s.written = text.toList
  := by
  rw [← ofChars?_eq_ok_iff, ofText?]
  cases ofChars? text.toList <;> simp [Except.mapError]

/-- A stretch of a source that was read is read from its own text. -/
theorem ofText?_of_isInfix {text : String} {s x : Source} (h : ofText? text = .ok s)
    (hx : x <:+: s) :
  ofText? (String.ofList x.written) = .ok x
  := by
  obtain ⟨hs, -⟩ := ofText?_eq_ok_iff.mp h
  apply ofText?_eq_ok_iff.mpr
  exact ⟨hs.of_isInfix hx, String.toList_ofList.symm⟩

end Source

namespace Region

/-- A stretch of a source that can be read by itself: its brackets match and its commas lie
inside them, its literal is encoded by what is left of its bytes without layout and comments,
and its comments are those of the source that lie in it. -/
structure IsStandalone (s : Source) (a : Region) : Prop where
  bracketed : Bracketed 0 a.source.chars
  literal : String.fromUTF8? (keptBytes a.source.spans 0 (bytes a.source.written)).toByteArray
    = some (String.ofList a.source.literal)
  read : Source.ofText? (String.ofList a.source.written) = .ok a.source
  comments : s.spans.filter (a.Holds ·) = a.source.spans.map (Span.shift a.start)

/-- A stretch of a region is a stretch of its source. -/
theorem Within.isInfix {q r : Region} (h : q.Within r) :
  q.source <:+: r.source
  := by
  obtain ⟨before, after, hr, -⟩ := h
  use before, after
  exact hr.symm

/-- A stretch of a text in which brackets match can be read by itself. -/
theorem isStandalone_of_within {text : String} {s : Source} {a : Region}
    (hs : Source.ofText? text = .ok s) (ha : a.Within ⟨0, s⟩)
    (hbracketed : Bracketed 0 a.source.chars) :
  a.IsStandalone s
  where
  bracketed := hbracketed
  literal := by
    rw [Source.spans, Source.keptBytes_written]
    apply fromUTF8?_bytes
  read := Source.ofText?_of_isInfix hs ha.isInfix
  comments := by
    rw [Source.spans, ha.filter_holds, Source.spans, ← Source.spansFrom_add, Nat.add_zero]

/-- What is between brackets and commas can be read by itself. -/
theorem isStandalone_of_mem_consecutive {text : String} {s before after : Source}
    {xs : List Source} (hs : Source.ofText? text = .ok s)
    (hdivided : s = before ++ Source.separated xs ++ after)
    (hxs : ∀ x ∈ xs, Bracketed 0 x.chars) {a : Region}
    (ha : a ∈ consecutive (Source.byteLength before.written) xs) :
  a.IsStandalone s
  := by
  have hmem : a.source ∈ xs := by
    have hsource := List.mem_map_of_mem (f := Region.source) ha
    rwa [source_consecutive] at hsource
  apply isStandalone_of_within hs _ (hxs a.source hmem)
  rw [← Nat.zero_add (Source.byteLength before.written)] at ha
  apply within_of_mem_consecutive (r := ⟨0, s⟩) hdivided ha

end Region

/-! ### The outermost level of a text -/

namespace Source

/-- The name that is divided off consists of letters, digits and underscores. -/
theorem isNamePart_of_mem_splitName {s : Source} {c : Char} (h : c ∈ s.splitName.1) :
  isNamePart c = true
  := by
  induction s with
  | nil => cases h
  | cons p s ih =>
    cases p with
    | comment d => cases h
    | char d =>
      rw [splitName] at h
      split at h
      · next hd =>
        rcases List.mem_cons.mp h with rfl | h
        · exact hd
        · exact ih h
      · cases h

/-- What is left from the first piece on that may start a name starts with a name. -/
theorem isName_splitName {s : Source} (h : s.splitAtName.2 ≠ []) :
  IsName s.splitAtName.2.splitName.1
  := by
  have hhead := List.head?_dropWhile_not startsNoName s
  rw [splitAtName_eq] at h ⊢
  dsimp only at h ⊢
  cases hrest : s.dropWhile startsNoName with
  | nil => exact absurd hrest h
  | cons p rest =>
    rw [hrest, List.head?_cons] at hhead
    cases p with
    | comment c => cases hhead
    | char c =>
      have hstart : isNameStart c = true := by simpa [startsNoName, Piece.char?] using hhead
      have hpart : isNamePart c = true := by
        rw [isNameStart] at hstart
        simp [isNamePart, Char.isAlphanum, hstart]
      rw [splitName, if_pos hpart]
      use c, (splitName rest).1, rfl, hstart
      intro d hd
      apply isNamePart_of_mem_splitName hd

/-- Each argument is a stretch of all of them. -/
theorem isInfix_separated {x : Source} {xs : List Source} (h : x ∈ xs) :
  x <:+: separated xs
  := by
  induction xs with
  | nil => cases h
  | cons y ys ih =>
    cases ys with
    | nil =>
      obtain rfl := List.mem_singleton.mp h
      use [], []
      simp [separated]
    | cons z zs =>
      rw [separated_cons_cons]
      rcases List.mem_cons.mp h with rfl | h
      · apply (List.prefix_append x _).isInfix
      · apply (ih h).trans
        apply ((List.suffix_cons _ _).trans (List.suffix_append y _)).isInfix

/-- Arguments are written with commas between any two. -/
theorem written_separated (xs : List Source) :
  written (separated xs) = [','].intercalate (xs.map written)
  := by
  induction xs with
  | nil => rfl
  | cons x xs ih =>
    cases xs with
    | nil => simp [separated]
    | cons y ys =>
      rw [written_separated_cons, ih]
      simp [List.intercalate_cons_cons]

end Source

namespace Expression

open Source

/-- An expression consists of a part where no name starts, its name, and what its arguments are
taken from. -/
theorem parts_of_ofSource? {s : Source} {e : Expression} (h : ofSource? s = .ok e) :
  ∃ before tail, s = before ++ plain e.name.toList ++ tail
    ∧ (∀ p ∈ before, startsNoName p = true)
    ∧ IsName e.name.toList
    ∧ tail.arguments? = some e.arguments
  := by
  simp only [ofSource?] at h
  split at h
  · cases h
  · next hrest =>
    split at h
    · next harguments =>
      obtain rfl := Except.ok.inj h
      rw [String.toList_ofList]
      refine ⟨s.splitAtName.1, s.splitAtName.2.splitName.2, ?_, ?_, ?_, harguments⟩
      · rw [List.append_assoc, plain_splitName, splitAtName_append]
      · rw [splitAtName_eq]
        exact fun p => List.mem_takeWhile_imp
      · apply isName_splitName hrest
    · cases h

/-- An argument is a stretch of what follows the opening bracket. -/
theorem exists_of_mem_arguments {s x : Source} {e : Expression} (h : ofSource? s = .ok e)
    (hx : x ∈ e.arguments) :
  ∃ before after, s = before ++ .char '<' :: after ∧ x <:+: after
  := by
  obtain ⟨before, tail, rfl, -, -, harguments⟩ := parts_of_ofSource? h
  rcases divided_of_arguments? harguments with ⟨-, hnone⟩ | ⟨y, ys, after, htail, -, hxs⟩
  · rw [hnone] at hx
    cases hx
  · have hmem : x ∈ y :: ys := by
      rw [hxs] at hx
      split at hx
      · cases hx
      · exact hx
    obtain ⟨front, back, hseparated⟩ := isInfix_separated hmem
    rw [htail, ← List.append_assoc]
    use before ++ plain e.name.toList ++ tail.takeWhile (· ≠ .char '<'),
      separated (y :: ys) ++ .char '>' :: after, rfl
    use front, back ++ .char '>' :: after
    rw [← hseparated]
    simp only [List.append_assoc]

/-- Each argument of an expression is a stretch of its source. -/
theorem isInfix_of_mem_arguments {s x : Source} {e : Expression} (h : ofSource? s = .ok e)
    (hx : x ∈ e.arguments) :
  x <:+: s
  := by
  obtain ⟨before, after, rfl, hafter⟩ := exists_of_mem_arguments h hx
  apply hafter.trans
  apply ((List.suffix_cons _ after).trans (List.suffix_append before _)).isInfix

/-- An argument is shorter than the expression. -/
theorem length_lt_of_mem_arguments {s x : Source} {e : Expression} (h : ofSource? s = .ok e)
    (hx : x ∈ e.arguments) :
  x.written.length < s.written.length
  := by
  obtain ⟨before, after, rfl, front, back, rfl⟩ := exists_of_mem_arguments h hx
  simp only [written_append, written_cons, Piece.written, List.length_append, List.length_singleton]
  omega

/-- The text of what is divided at commas, and the arguments by themselves. -/
theorem standalone_of_divided {text : String} {s before between after : Source}
    {name : List Char} {xs : List Source} (hs : Source.ofText? text = .ok s)
    (hparts : s = before ++ plain name ++ between
      ++ .char '<' :: (separated xs ++ .char '>' :: after))
    (hxs : ∀ x ∈ xs, Bracketed 0 x.chars) :
  text.toList = before.written ++ name ++ between.written ++ ['<']
      ++ [','].intercalate (xs.map written) ++ '>' :: after.written
    ∧ ∀ a ∈ Region.consecutive (byteLength (before.written ++ name ++ between.written ++ ['<'])) xs,
      a.IsStandalone s
  := by
  have hopening : before.written ++ name ++ between.written ++ ['<']
      = written (before ++ plain name ++ between ++ [.char '<']) := by
    simp only [written_append, written_plain]
    rfl
  have hdivided : s = before ++ plain name ++ between ++ [.char '<']
      ++ separated xs ++ .char '>' :: after := by
    rw [hparts]
    simp only [List.append_assoc, List.cons_append, List.nil_append]
  rw [hopening]
  constructor
  · rw [← written_separated, ← (ofText?_eq_ok_iff.mp hs).2, hdivided]
    simp only [written_append]
    rfl
  · intro a
    apply Region.isStandalone_of_mem_consecutive hs hdivided hxs

/-- The outermost level of an expression is an exact division of its text.  Between the name and
what follows no bracket is opened.  Without arguments nothing follows, or there are only layout
and comments up to the closing bracket.  Otherwise there follow the arguments between brackets,
with commas between any two, and every one of them can be read by itself. -/
theorem arguments_divide_text {text : String} {e : Expression} (h : ofText? text = .ok e) :
  ∃ s before between rest : Source, Source.ofText? text = .ok s
    ∧ s = before ++ plain e.name.toList ++ between ++ rest
    ∧ (∀ p ∈ before, startsNoName p = true)
    ∧ IsName e.name.toList
    ∧ .char '<' ∉ between
    ∧ (e.arguments = [] → rest = [] ∨ ∃ x after : Source, x.Blank
        ∧ rest = .char '<' :: (x ++ .char '>' :: after))
    ∧ (e.arguments ≠ [] → ∃ (opening : List Char) (after : Source),
        opening = before.written ++ e.name.toList ++ between.written ++ ['<']
        ∧ rest = .char '<' :: (separated e.arguments ++ .char '>' :: after)
        ∧ text.toList = opening ++ [','].intercalate (e.arguments.map written)
            ++ '>' :: after.written
        ∧ ∀ a ∈ Region.consecutive (byteLength opening) e.arguments, a.IsStandalone s)
  := by
  cases hs : Source.ofText? text with
  | error error =>
    rw [ofText?, hs] at h
    cases h
  | ok s =>
    rw [ofText?, hs] at h
    obtain ⟨before, tail, hparts, hbefore, hname, harguments⟩ := parts_of_ofSource? h
    use s, before
    rcases divided_of_arguments? harguments with ⟨hno, hnone⟩ | ⟨x, ys, after, htail, hsplit, hxs⟩
    · use tail, [], rfl
      rw [List.append_nil]
      exact ⟨hparts, hbefore, hname, hno, fun _ => Or.inl rfl, fun hsome => absurd hnone hsome⟩
    · have hbetween : Piece.char '<' ∉ tail.takeWhile (· ≠ .char '<') := by
        intro hmem
        simpa using List.mem_takeWhile_imp hmem
      generalize tail.takeWhile (· ≠ .char '<') = between at htail hbetween
      subst htail
      rw [← List.append_assoc] at hparts
      use between, .char '<' :: (separated (x :: ys) ++ .char '>' :: after), rfl
      refine ⟨hparts, hbefore, hname, hbetween, ?_, ?_⟩
      · intro hnone
        rw [hnone] at hxs
        obtain ⟨rfl, hliteral⟩ : ys = [] ∧ x.literal = [] := by
          by_contra hsome
          rw [if_neg hsome] at hxs
          cases hxs
        right
        use x, after, blank_of_literal_eq_nil hliteral
        rw [separated, List.intercalate_singleton]
      · intro hsome
        have harguments : e.arguments = x :: ys := by
          rw [hxs, if_neg]
          intro hnone
          rw [if_pos hnone] at hxs
          exact hsome hxs
        obtain ⟨hfirst, hothers⟩ := bracketed_of_splitArguments hsplit
        rw [harguments]
        apply Exists.intro
        use after, rfl, rfl
        apply standalone_of_divided hs hparts
        exact List.forall_mem_cons.mpr ⟨hfirst, hothers⟩

/-- Brackets and commas in comments, and a comment that ends in the middle of an argument. -/
def bracketedComments : String :=
  "/* Mix< */ Layers // <\n</* <, */ Rgb<1, 2 /* > */, 3>, Bl // é,\nue, /* >> */> /* , */"

theorem arguments_divide_text_bracketedComments :
  ∃ e s opening after, ofText? bracketedComments = .ok e
    ∧ Source.ofText? bracketedComments = .ok s
    ∧ e.arguments.map literal = ["Rgb<1,2,3>".toList, "Blue".toList, []]
    ∧ bracketedComments.toList = opening ++ [','].intercalate (e.arguments.map written)
        ++ '>' :: written after
    ∧ ∀ a ∈ Region.consecutive (byteLength opening) e.arguments, a.IsStandalone s
  := by
  have hliterals : (ofText? bracketedComments).toOption.map (fun e => e.arguments.map literal)
      = some ["Rgb<1,2,3>".toList, "Blue".toList, []] := by
    decide +kernel
  obtain ⟨e, he, hliterals⟩ := exists_of_map_toOption_eq_some hliterals
  obtain ⟨s, _, _, _, hs, -, -, -, -, -, harguments⟩ := arguments_divide_text he
  have hsome : e.arguments ≠ [] := by
    intro hnone
    rw [hnone] at hliterals
    cases hliterals
  obtain ⟨opening, after, -, -, hwritten, hstandalone⟩ := harguments hsome
  exact ⟨e, s, opening, after, he, hs, hliterals, hwritten, hstandalone⟩

end Expression

end BladeStyle
