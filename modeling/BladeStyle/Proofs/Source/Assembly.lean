import BladeStyle.Proofs.Source.Reading
import BladeStyle.Proofs.Source.Rewriting
import BladeStyle.Style.Layout

/-!
# Putting expressions together

A source is balanced if its brackets match and it has no comma outside them.  Balanced
sources between brackets, with commas between any two, are found again as the arguments of
the expression.  The arguments of a node in either layout are such sources, padded with
layout characters.
-/

namespace BladeStyle.Source

/-! ### Plain sources -/

/-- The source of a text without comments. -/
def plain (cs : List Char) : Source := cs.map .char

@[simp]
theorem plain_append (cs ds : List Char) :
  plain (cs ++ ds) = plain cs ++ plain ds
  := List.map_append

/-- A plain source is written as the text it was made of. -/
@[simp]
theorem written_plain (cs : List Char) :
  written (plain cs) = cs
  := by
  simp [written, plain, List.flatMap_map, Piece.written]

@[simp]
theorem comments_plain (cs : List Char) :
  comments (plain cs) = []
  := by
  simp [comments, plain, Piece.comment?]

/-- Of a plain source a literal takes everything but the layout. -/
theorem literal_plain (cs : List Char) :
  literal (plain cs) = cs.filter fun c => !Text.isLayout c
  := by
  simp [literal, chars, plain, Function.comp_def, Piece.char?]

theorem mem_plain {p : Piece} {cs : List Char} :
  p ∈ plain cs ↔ ∃ c ∈ cs, .char c = p
  := List.mem_map

/-- Layout characters are padding. -/
theorem padding_plain {cs : List Char} (h : ∀ c ∈ cs, Text.isLayout c = true) :
  (plain cs).Padding
  := by
  intro p hp
  obtain ⟨c, hc, rfl⟩ := mem_plain.mp hp
  use c, rfl, h c hc

/-- Without a slash no character can open a comment, so all of them are read back wherever
they stand. -/
theorem isStable_plain {cs : List Char} (h : '/' ∉ cs) :
  ∀ p ∈ plain cs, p.IsStable
  := by
  intro p hp
  obtain ⟨c, hc, rfl⟩ := mem_plain.mp hp
  rintro rfl
  exact h hc

/-! ### Inert characters -/

/-- A character of a name or of a literal. -/
def isInert (c : Char) : Bool := c.isAlphanum || c = '_' || c = '-'

theorem ne_of_isInert {c d : Char} (h : isInert c = true) (hd : isInert d = false) :
  c ≠ d
  := by
  rintro rfl
  rw [h] at hd
  cases hd

/-- What may stand in a name or a literal is not layout. -/
theorem isLayout_of_isInert {c : Char} (h : isInert c = true) :
  Text.isLayout c = false
  := by
  simp only [Text.isLayout, Bool.or_eq_false_iff, decide_eq_false_iff_not]
  exact ⟨⟨⟨ne_of_isInert h rfl, ne_of_isInert h rfl⟩, ne_of_isInert h rfl⟩, ne_of_isInert h rfl⟩

/-- A name or a literal stands for itself: no character of it is left out. -/
theorem literal_plain_of_isInert {cs : List Char} (h : ∀ c ∈ cs, isInert c = true) :
  literal (plain cs) = cs
  := by
  rw [literal_plain, List.filter_eq_self]
  intro c hc
  rw [isLayout_of_isInert (h c hc)]
  rfl

/-- A name or a literal has no slash and is read back wherever it stands. -/
theorem isStable_plain_of_isInert {cs : List Char} (h : ∀ c ∈ cs, isInert c = true) :
  ∀ p ∈ plain cs, p.IsStable
  := by
  apply isStable_plain
  intro hmem
  exact ne_of_isInert (h '/' hmem) rfl rfl

/-! ### Balanced sources -/

/-- A source whose brackets match.  Outside of them there are commas only if it stands
`inside` brackets itself. -/
inductive Balanced : (inside : Bool) → Source → Prop where
  | nil (inside : Bool) : Balanced inside []
  | piece (inside : Bool) {p : Piece} (hopen : p ≠ .char '<') (hclose : p ≠ .char '>')
      (hcomma : p ≠ .char ',') : Balanced inside [p]
  | comma : Balanced true [.char ',']
  | brackets (inside : Bool) {s : Source} (h : Balanced true s) :
      Balanced inside (.char '<' :: (s ++ [.char '>']))
  | append {inside : Bool} {s t : Source} (hs : Balanced inside s) (ht : Balanced inside t) :
      Balanced inside (s ++ t)

namespace Balanced

/-- Between brackets commas are allowed, so that a balanced source stays balanced there. -/
theorem enclosed {inside : Bool} {s : Source} (h : Balanced inside s) :
  Balanced true s
  := by
  induction h with
  | nil => apply nil
  | piece _ hopen hclose hcomma => apply piece true hopen hclose hcomma
  | comma => apply comma
  | brackets _ _ ih => apply brackets true ih
  | append _ _ hs ht => apply append hs ht

/-- A source without brackets and commas is balanced, inside brackets or not. -/
theorem of_forall (inside : Bool) {s : Source}
    (h : ∀ p ∈ s, p ≠ .char '<' ∧ p ≠ .char '>' ∧ p ≠ .char ',') :
  Balanced inside s
  := by
  induction s with
  | nil => apply nil
  | cons p s ih =>
    obtain ⟨⟨hopen, hclose, hcomma⟩, hs⟩ := List.forall_mem_cons.mp h
    apply append (piece inside hopen hclose hcomma) (ih hs)

/-- Layout and comments have neither brackets nor commas. -/
theorem of_blank (inside : Bool) {s : Source} (h : s.Blank) :
  Balanced inside s
  := by
  apply of_forall
  intro p hp
  have hblank := h p hp
  refine ⟨?_, ?_, ?_⟩
  all_goals
    rintro rfl
    cases hblank

/-- Names and literals have neither brackets nor commas. -/
theorem of_isInert (inside : Bool) {cs : List Char} (h : ∀ c ∈ cs, isInert c = true) :
  Balanced inside (plain cs)
  := by
  apply of_forall
  intro p hp
  obtain ⟨c, hc, rfl⟩ := mem_plain.mp hp
  simp only [ne_eq, Piece.char.injEq]
  exact ⟨ne_of_isInert (h c hc) rfl, ne_of_isInert (h c hc) rfl, ne_of_isInert (h c hc) rfl⟩

/-- Whatever brings in no brackets and no commas of its own leaves a source balanced. -/
theorem flatMap {f : Piece → Source} (hf : Piece.Neutral f) {inside : Bool} {s : Source}
    (h : Balanced inside s) :
  Balanced inside (s.flatMap f)
  := by
  induction h with
  | nil => apply nil
  | @piece inside p hopen hclose hcomma =>
    rw [List.flatMap_singleton]
    cases hp : p.isBlank with
    | true => apply of_blank inside (hf.blank p hp).2
    | false =>
      rw [hf.solid p hp]
      apply piece inside hopen hclose hcomma
  | comma =>
    rw [List.flatMap_singleton, hf.solid _ rfl]
    apply comma
  | brackets inside _ ih =>
    rw [List.flatMap_cons, List.flatMap_append, List.flatMap_singleton, hf.solid _ rfl,
      hf.solid _ rfl]
    apply brackets inside ih
  | append _ _ hs ht =>
    rw [List.flatMap_append]
    apply append hs ht

end Balanced

/-- A balanced source is passed over on the way to the end of an argument. -/
theorem splitArguments_balanced_append {inside : Bool} {s : Source} (h : Balanced inside s)
    {depth : Nat} (hdepth : inside = true → depth ≠ 0) (rest : Source) :
  splitArguments depth (s ++ rest)
    = (splitArguments depth rest).map fun (a, others) => (s ++ a, others)
  := by
  induction h generalizing depth rest with
  | nil => simp
  | piece _ hopen hclose hcomma =>
    rw [List.singleton_append, splitArguments]
    · rfl
    · exact hopen
    · exact hclose
    · exact hcomma
  | comma =>
    obtain ⟨depth, rfl⟩ := Nat.exists_eq_succ_of_ne_zero (hdepth rfl)
    rfl
  | brackets _ _ ih =>
    rw [List.cons_append, splitArguments, List.append_assoc, ih fun _ => by simp,
      List.singleton_append, splitArguments]
    simp [Function.comp_def]
  | append _ _ hs ht =>
    rw [List.append_assoc, hs hdepth, ht hdepth]
    simp [Function.comp_def]

/-! ### Arguments -/

/-- Arguments with commas between any two. -/
def separated (xs : List Source) : Source := [.char ','].intercalate xs

/-- Arguments are balanced inside brackets together with the commas between them. -/
theorem balanced_separated {xs : List Source} (h : ∀ x ∈ xs, Balanced false x) :
  Balanced true (separated xs)
  := by
  induction xs with
  | nil => apply Balanced.nil
  | cons x xs ih =>
    obtain ⟨hx, hxs⟩ := List.forall_mem_cons.mp h
    cases xs with
    | nil => simpa [separated] using hx.enclosed
    | cons y ys =>
      rw [separated, List.intercalate_cons_cons]
      apply Balanced.append (Balanced.append hx.enclosed Balanced.comma) (ih hxs)

/-- What occurs in lists with a separator between them occurs in the separator or in one
of the lists. -/
theorem mem_of_mem_intercalate {α : Type} {a : α} {separator : List α} {xs : List (List α)}
    (h : a ∈ separator.intercalate xs) :
  a ∈ separator ∨ ∃ x ∈ xs, a ∈ x
  := by
  induction xs with
  | nil => cases h
  | cons x xs ih =>
    cases xs with
    | nil =>
      right
      use x
      simpa using h
    | cons y ys =>
      rw [List.intercalate_cons_cons, List.mem_append, List.mem_append] at h
      rcases h with (h | h) | h
      · exact Or.inr ⟨x, by simp, h⟩
      · exact Or.inl h
      · rcases ih h with h | ⟨z, hz, h⟩
        · exact Or.inl h
        · exact Or.inr ⟨z, List.mem_cons_of_mem x hz, h⟩

/-- Arguments are found again at the commas, up to the bracket that closes them. -/
theorem splitArguments_separated {x : Source} {xs : List Source} (hx : Balanced false x)
    (hxs : ∀ y ∈ xs, Balanced false y) (rest : Source) :
  splitArguments 0 (separated (x :: xs) ++ .char '>' :: rest) = some (x, xs)
  := by
  induction xs generalizing x with
  | nil =>
    rw [separated, List.intercalate_singleton, splitArguments_balanced_append hx (by simp)]
    simp [splitArguments]
  | cons y ys ih =>
    obtain ⟨hy, hys⟩ := List.forall_mem_cons.mp hxs
    rw [separated, List.intercalate_cons_cons, ← separated, List.append_assoc, List.append_assoc,
      splitArguments_balanced_append hx (by simp), List.singleton_append, splitArguments,
      ih hy hys]
    simp

/-- Arguments between brackets are read as these arguments, whatever follows the brackets. -/
theorem arguments?_brackets {xs : List Source} (h : ∀ x ∈ xs, Balanced false x)
    (hne : ∀ x ∈ xs, literal x ≠ []) (rest : Source) :
  arguments? (.char '<' :: (separated xs ++ .char '>' :: rest)) = some xs
  := by
  cases xs with
  | nil => rfl
  | cons x xs =>
    have hx := hne x (by simp)
    rw [arguments?, splitArguments_separated (h x (by simp)) fun y hy => h y (by simp [hy])]
    simp [hx]

/-- A source that says what `core` says, with layout characters around it. -/
def Padded (core x : Source) : Prop :=
  ∃ before after : Source, before.Padding ∧ after.Padding ∧ x = before ++ core ++ after

/-- Every source says what it says, with nothing around it. -/
theorem Padded.refl (core : Source) :
  Padded core core
  := ⟨[], [], Padding.nil, Padding.nil, (List.append_nil core).symm⟩

/-- Layout around a literal does not change it. -/
theorem Padded.literal {core x : Source} (h : Padded core x) :
  Source.literal x = Source.literal core
  := by
  obtain ⟨before, after, hb, ha, rfl⟩ := h
  simp [literal_of_blank hb.blank, literal_of_blank ha.blank]

/-- Layout around an expression does not change its outermost level. -/
theorem Padded.ofSource? {core x : Source} (h : Padded core x) :
  Expression.ofSource? x = Expression.ofSource? core
  := by
  obtain ⟨before, after, hb, ha, rfl⟩ := h
  rw [ofSource?_append_padding ha, ofSource?_padding_append hb]

theorem written_separated_cons (x y : Source) (ys : List Source) :
  written (separated (x :: y :: ys)) = written x ++ ',' :: written (separated (y :: ys))
  := by
  simp [separated, Piece.written]

/-- Parameters on lines of their own are arguments with a line feed and a tab before them,
and a line feed after the last. -/
theorem exists_separated_apart (core : Source) (cores : List Source) :
  ∃ x xs, List.Forall₂ Padded (core :: cores) (x :: xs)
    ∧ Layout.arrange true ((core :: cores).map written) = written (separated (x :: xs))
  := by
  have before : (plain ['\n', '\t']).Padding := padding_plain (by simp [Text.isLayout])
  have after : (plain ['\n']).Padding := padding_plain (by simp [Text.isLayout])
  induction cores generalizing core with
  | nil =>
    use plain ['\n', '\t'] ++ core ++ plain ['\n'], []
    constructor
    · apply List.Forall₂.cons _ List.Forall₂.nil
      use plain ['\n', '\t'], plain ['\n']
    · simp [Layout.arrange, separated]
  | cons core' cores ih =>
    obtain ⟨x, xs, hxs, e⟩ := ih core'
    use plain ['\n', '\t'] ++ core, x :: xs
    constructor
    · apply List.Forall₂.cons _ hxs
      use plain ['\n', '\t'], []
      simpa [Padding] using before
    · rw [written_separated_cons, ← e]
      simp [Layout.arrange]

/-- Parameters on one line are arguments with a space after each comma; `before` goes to the
first of them. -/
theorem exists_separated_inline {before : Source} (hbefore : before.Padding) (core : Source)
    (cores : List Source) :
  ∃ x xs, List.Forall₂ Padded (core :: cores) (x :: xs)
    ∧ before.written ++ Layout.arrange false ((core :: cores).map written)
      = written (separated (x :: xs))
  := by
  induction cores generalizing core before with
  | nil =>
    use before ++ core, []
    constructor
    · apply List.Forall₂.cons _ List.Forall₂.nil
      use before, []
      simpa [Padding] using hbefore
    · simp [Layout.arrange, separated]
  | cons core' cores ih =>
    have space : (plain [' ']).Padding := padding_plain (by simp [Text.isLayout])
    obtain ⟨x, xs, hxs, e⟩ := ih space core'
    use before ++ core, x :: xs
    constructor
    · apply List.Forall₂.cons _ hxs
      use before, []
      simpa [Padding] using hbefore
    · rw [written_separated_cons, ← e]
      simp [Layout.arrange]

/-- The parameters of a node, arranged in either way, are arguments with padding. -/
theorem exists_separated (apart : Bool) (cores : List Source)
    (hapart : apart = true → cores ≠ []) :
  ∃ xs, List.Forall₂ Padded cores xs
    ∧ Layout.arrange apart (cores.map written) = written (separated xs)
  := by
  cases cores with
  | nil =>
    use []
    cases apart with
    | true => exact absurd rfl (hapart rfl)
    | false => exact ⟨List.Forall₂.nil, rfl⟩
  | cons core cores =>
    cases apart with
    | true =>
      obtain ⟨x, xs, hxs, e⟩ := exists_separated_apart core cores
      use x :: xs
    | false =>
      obtain ⟨x, xs, hxs, e⟩ := exists_separated_inline Padding.nil core cores
      use x :: xs, hxs
      simpa using e

/-! ### Parts of a text -/

/-- A source that is read back and that stands for itself between brackets and commas. -/
structure IsPart (s : Source) : Prop where
  stable : ∀ p ∈ s, p.IsStable
  balanced : Balanced false s

namespace IsPart

/-- Two parts one after the other are a part. -/
theorem append {s t : Source} (hs : IsPart s) (ht : IsPart t) :
  IsPart (s ++ t)
  where
  stable p hp := by
    rcases List.mem_append.mp hp with hp | hp
    · apply hs.stable p hp
    · apply ht.stable p hp
  balanced := Balanced.append hs.balanced ht.balanced

/-- A name or a literal is a part. -/
theorem of_isInert {cs : List Char} (h : ∀ c ∈ cs, isInert c = true) :
  IsPart (plain cs)
  where
  stable := isStable_plain_of_isInert h
  balanced := Balanced.of_isInert false h

/-- Parts between brackets with commas between them are a part, which is how a node is
made from its parameters. -/
theorem brackets {xs : List Source} (h : ∀ x ∈ xs, IsPart x) :
  IsPart (.char '<' :: (separated xs ++ [.char '>']))
  where
  stable p hp := by
    have hxs : ∀ p ∈ separated xs, p.IsStable := by
      intro p hp
      rcases mem_of_mem_intercalate hp with hp | ⟨x, hx, hp⟩
      · obtain rfl := List.mem_singleton.mp hp
        rintro ⟨⟩
      · apply (h x hx).stable p hp
    rcases List.mem_cons.mp hp with rfl | hp
    · rintro ⟨⟩
    · rcases List.mem_append.mp hp with hp | hp
      · apply hxs p hp
      · obtain rfl := List.mem_singleton.mp hp
        rintro ⟨⟩
  balanced := by
    apply Balanced.brackets
    apply balanced_separated
    exact fun x hx => (h x hx).balanced

end IsPart

/-- Layout is a part. -/
theorem Padding.isPart {s : Source} (h : s.Padding) :
  IsPart s
  where
  stable p hp := by
    obtain ⟨c, rfl, hc⟩ := h p hp
    apply ne_of_isLayout hc rfl
  balanced := Balanced.of_blank false h.blank

/-- A part stays one with layout around it. -/
theorem Padded.isPart {core x : Source} (h : Padded core x) (hcore : IsPart core) :
  IsPart x
  := by
  obtain ⟨before, after, hb, ha, rfl⟩ := h
  apply IsPart.append _ ha.isPart
  apply IsPart.append hb.isPart hcore

/-! ### Names -/

/-- A letter, then letters, digits and underscores, all of them ASCII. -/
def IsName (name : List Char) : Prop :=
  ∃ c cs, name = c :: cs ∧ isNameStart c = true ∧ ∀ d ∈ cs, isNamePart d = true

/-- The first character of a name may also stand further on in it. -/
theorem IsName.isNamePart {name : List Char} (h : IsName name) {c : Char} (hc : c ∈ name) :
  Source.isNamePart c = true
  := by
  obtain ⟨d, ds, rfl, hd, hds⟩ := h
  rcases List.mem_cons.mp hc with rfl | hc
  · simp only [isNameStart] at hd
    simp [Source.isNamePart, Char.isAlphanum, hd]
  · apply hds c hc

theorem IsName.isInert {name : List Char} (h : IsName name) :
  ∀ c ∈ name, Source.isInert c = true
  := by
  intro c hc
  have hpart := h.isNamePart hc
  simp only [Source.isNamePart] at hpart
  simp [Source.isInert, hpart]

/-- A run of letters, digits and underscores is divided off whole if no such character
follows it. -/
theorem splitName_plain_append {name : List Char} (h : ∀ c ∈ name, isNamePart c = true)
    {s : Source} (hs : splitName s = ([], s)) :
  splitName (plain name ++ s) = (name, s)
  := by
  induction name with
  | nil => exact hs
  | cons c name ih =>
    obtain ⟨hc, hname⟩ := List.forall_mem_cons.mp h
    have hrest := ih hname
    simp only [plain] at hrest
    simp [plain, splitName, hc, hrest]

/-- The outermost level of an expression that has been put together. -/
theorem ofSource?_named {head : Source} (hhead : ∀ p ∈ head, startsNoName p = true)
    {name : List Char} (hname : IsName name) {s : Source} (hs : splitName s = ([], s))
    {xs : List Source} (hxs : arguments? s = some xs) :
  Expression.ofSource? (head ++ (plain name ++ s)) = .ok ⟨head.comments, String.ofList name, xs⟩
  := by
  obtain ⟨c, cs, e, hc, -⟩ := id hname
  have hstart : startsNoName (.char c) = false := by simp [startsNoName, Piece.char?, hc]
  have hsplit := splitName_plain_append (fun d => hname.isNamePart) hs
  have hcons : plain name ++ s = .char c :: (plain cs ++ s) := by simp [e, plain]
  rw [hcons] at hsplit ⊢
  simp only [Expression.ofSource?, splitAtName_eq]
  rw [List.takeWhile_append_of_pos hhead, List.dropWhile_append_of_pos hhead,
    List.takeWhile_cons_of_neg (by simp [hstart]), List.dropWhile_cons_of_neg (by simp [hstart])]
  simp [hsplit, hxs]

end BladeStyle.Source
