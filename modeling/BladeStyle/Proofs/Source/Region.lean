import BladeStyle.Proofs.Source.Assembly

/-!
# Regions of a source

A region is a stretch of a source together with its place, counted in bytes.  The comments
that lie in a region of a source are those of the stretch.  The text before the name of an
expression and its arguments are regions of it, one after the other: what `splitArguments`
divides is what `separated` puts together.
-/

namespace BladeStyle

/-! ### The places of comments -/

/-- A comment takes up some bytes, its marker at least. -/
theorem Comment.byteLength_written_pos (c : Comment) :
  0 < Source.byteLength c.written
  := by
  cases c <;> simp only [written, Source.byteLength, List.foldr_cons] <;>
    exact Nat.add_pos_left (Char.utf8Size_pos _) _

namespace Source

/-- The bytes of two texts add up. -/
theorem byteLength_append (cs ds : List Char) :
  byteLength (cs ++ ds) = byteLength cs + byteLength ds
  := by
  induction cs with
  | nil => simp [byteLength]
  | cons c cs ih =>
    simp only [byteLength, List.cons_append, List.foldr_cons] at ih ⊢
    rw [ih, Nat.add_assoc]

/-- The comments of the second of two sources lie behind the bytes of the first. -/
theorem spansFrom_append (start : Nat) (s t : Source) :
  spansFrom start (s ++ t)
    = spansFrom start s ++ spansFrom (start + byteLength s.written) t
  := by
  induction s generalizing start with
  | nil => simp [spansFrom, byteLength]
  | cons p s ih =>
    rw [written_cons, byteLength_append, ← Nat.add_assoc]
    cases p <;> simp [spansFrom, ih]

/-- The spans of a source are those of its comments, in order. -/
theorem comment_spansFrom (start : Nat) (s : Source) :
  (spansFrom start s).map Span.comment = s.comments
  := by
  induction s generalizing start with
  | nil => rfl
  | cons p s ih =>
    cases p with
    | char c => exact ih _
    | comment c => exact congrArg (c :: ·) (ih _)

/-- No comment is empty, and none reaches out of its source. -/
theorem bounds_of_mem_spansFrom {start : Nat} {s : Source} {span : Span}
    (h : span ∈ spansFrom start s) :
  start ≤ span.start ∧ span.start < span.stop ∧ span.stop ≤ start + byteLength s.written
  := by
  induction s generalizing start with
  | nil => cases h
  | cons p s ih =>
    rw [written_cons, byteLength_append, ← Nat.add_assoc]
    cases p with
    | char c =>
      obtain ⟨hstart, hlt, hstop⟩ := ih h
      exact ⟨by omega, hlt, hstop⟩
    | comment c =>
      rcases List.mem_cons.mp h with rfl | h
      · have hpos := c.byteLength_written_pos
        simp only [Piece.written]
        omega
      · obtain ⟨hstart, hlt, hstop⟩ := ih h
        exact ⟨by omega, hlt, hstop⟩

end Source

/-! ### Regions -/

/-- What is taken for one of two reasons, if the second applies only to the end of a list and
the first only to what is before it. -/
theorem filter_or_append {α : Type} {P Q : α → Prop} [DecidablePred P] [DecidablePred Q]
    {xs ys : List α} (hxs : ∀ x ∈ xs, ¬ Q x) (hys : ∀ y ∈ ys, ¬ P y) :
  (xs ++ ys).filter (fun a => P a ∨ Q a) = (xs ++ ys).filter (P ·) ++ (xs ++ ys).filter (Q ·)
  := by
  have hfirst : xs.filter (fun a => P a ∨ Q a) = xs.filter (P ·) := by
    apply List.filter_congr
    intro x hx
    simp [hxs x hx]
  have hsecond : ys.filter (fun a => P a ∨ Q a) = ys.filter (Q ·) := by
    apply List.filter_congr
    intro y hy
    simp [hys y hy]
  have hQ : xs.filter (Q ·) = [] := by
    simpa [List.filter_eq_nil_iff] using hxs
  have hP : ys.filter (P ·) = [] := by
    simpa [List.filter_eq_nil_iff] using hys
  simp only [List.filter_append, hfirst, hsecond, hQ, hP, List.append_nil, List.nil_append]

/-- A stretch of a source: the bytes before it, and its pieces. -/
structure Region where
  start : Nat
  source : Source

namespace Region

variable {p q r : Region}

/-- The bytes up to the end of a region. -/
def stop (r : Region) : Nat := r.start + Source.byteLength r.source.written

/-- A comment that lies in a region. -/
def Holds (r : Region) (span : Span) : Prop := r.start ≤ span.start ∧ span.stop ≤ r.stop

instance (r : Region) : DecidablePred r.Holds :=
  fun span => inferInstanceAs (Decidable (r.start ≤ span.start ∧ span.stop ≤ r.stop))

/-- What the comments of a region say. -/
def text (r : Region) : String := String.ofList (Comment.joinedText r.source.comments)

/-- A region that is a stretch of another one. -/
def Within (q r : Region) : Prop :=
  ∃ before after, r.source = before ++ q.source ++ after
    ∧ q.start = r.start + Source.byteLength before.written

/-- A region that ends before another one starts. -/
def Before (q r : Region) : Prop := q.stop ≤ r.start

theorem Within.refl (r : Region) :
  r.Within r
  := ⟨[], [], by simp, rfl⟩

theorem Within.trans (h : p.Within q) (h' : q.Within r) :
  p.Within r
  := by
  obtain ⟨before, after, hq, hp⟩ := h
  obtain ⟨before', after', hr, hq'⟩ := h'
  use before' ++ before, after ++ after'
  constructor
  · rw [hr, hq]
    simp only [List.append_assoc]
  · rw [hp, hq', Source.written_append, Source.byteLength_append, Nat.add_assoc]

/-- A region that is a stretch of another one lies between its bounds. -/
theorem Within.bounds (h : q.Within r) :
  r.start ≤ q.start ∧ q.stop ≤ r.stop
  := by
  obtain ⟨before, after, hr, hq⟩ := h
  simp only [stop, hr, hq, Source.written_append, Source.byteLength_append]
  omega

theorem Before.trans (h : p.Before q) (h' : q.Before r) :
  p.Before r
  := by
  simp only [Before, stop] at h h' ⊢
  omega

/-- Regions within two others are in the same order as these. -/
theorem Before.within {q' r' : Region} (h : q.Before r) (hq : q'.Within q) (hr : r'.Within r) :
  q'.Before r'
  := by
  have hstop := hq.bounds.2
  have hstart := hr.bounds.1
  simp only [Before] at h ⊢
  omega

/-- The comments that lie in a region of a source are those of the region. -/
theorem Within.filter_holds (h : q.Within r) :
  (r.source.spansFrom r.start).filter (q.Holds ·) = q.source.spansFrom q.start
  := by
  obtain ⟨before, after, hr, hq⟩ := h
  have hbefore : (before.spansFrom r.start).filter (q.Holds ·) = [] := by
    apply List.filter_eq_nil_iff.mpr
    intro span hspan hholds
    have hbounds := Source.bounds_of_mem_spansFrom hspan
    have hstart := (of_decide_eq_true hholds).1
    omega
  have hself : (q.source.spansFrom q.start).filter (q.Holds ·) = q.source.spansFrom q.start := by
    apply List.filter_eq_self.mpr
    intro span hspan
    have hbounds := Source.bounds_of_mem_spansFrom hspan
    exact decide_eq_true ⟨hbounds.1, hbounds.2.2⟩
  have hafter : (after.spansFrom q.stop).filter (q.Holds ·) = [] := by
    apply List.filter_eq_nil_iff.mpr
    intro span hspan hholds
    have hbounds := Source.bounds_of_mem_spansFrom hspan
    have hstop := (of_decide_eq_true hholds).2
    omega
  rw [hr, Source.spansFrom_append, Source.spansFrom_append, Source.written_append,
    Source.byteLength_append, ← Nat.add_assoc, ← hq, ← stop, List.filter_append,
    List.filter_append, hbefore, hself, hafter, List.nil_append, List.append_nil]

/-- Regions within `r` that follow one after the other. -/
structure Arranged (r : Region) (regions : List Region) : Prop where
  within : ∀ q ∈ regions, q.Within r
  ordered : regions.Pairwise Before

/-- Regions follow one another if the first lies before all of the others, and these
follow one another. -/
theorem arranged_cons {regions : List Region} :
  r.Arranged (q :: regions)
    ↔ q.Within r ∧ (∀ q' ∈ regions, q.Before q') ∧ r.Arranged regions
  := by
  constructor
  · rintro ⟨hwithin, hordered⟩
    obtain ⟨hq, hwithin⟩ := List.forall_mem_cons.mp hwithin
    obtain ⟨hbefore, hordered⟩ := List.pairwise_cons.mp hordered
    exact ⟨hq, hbefore, hwithin, hordered⟩
  · rintro ⟨hq, hbefore, hwithin, hordered⟩
    exact ⟨List.forall_mem_cons.mpr ⟨hq, hwithin⟩, List.pairwise_cons.mpr ⟨hbefore, hordered⟩⟩

theorem Within.arranged (h : q.Within r) :
  r.Arranged [q]
  := arranged_cons.mpr ⟨h, nofun, nofun, List.Pairwise.nil⟩

/-- A region may give way to regions within it. -/
theorem Arranged.expand {inner regions : List Region} (h : r.Arranged (p :: q :: regions))
    (hinner : q.Arranged inner) :
  r.Arranged (p :: (inner ++ regions))
  := by
  obtain ⟨hp, hfollow, h⟩ := arranged_cons.mp h
  obtain ⟨hq, hfollow', hregions⟩ := arranged_cons.mp h
  obtain ⟨hpq, hpregions⟩ := List.forall_mem_cons.mp hfollow
  apply arranged_cons.mpr
  refine ⟨hp, ?_, ?_, ?_⟩
  · intro q' hq'
    rcases List.mem_append.mp hq' with hq' | hq'
    · apply hpq.within (Within.refl p) (hinner.within q' hq')
    · apply hpregions q' hq'
  · intro q' hq'
    rcases List.mem_append.mp hq' with hq' | hq'
    · apply (hinner.within q' hq').trans hq
    · apply hregions.within q' hq'
  · apply List.pairwise_append.mpr
    use hinner.ordered, hregions.ordered
    intro q' hq' r' hr'
    apply (hfollow' r' hr').within (hinner.within q' hq') (Within.refl r')

/-- The comments that lie in one of several regions are those of the regions in turn. -/
theorem Arranged.filter_holds {regions : List Region} (h : r.Arranged regions) :
  (r.source.spansFrom r.start).filter (fun span => ∃ q ∈ regions, q.Holds span)
    = regions.flatMap fun q => q.source.spansFrom q.start
  := by
  induction regions with
  | nil => simp
  | cons q regions ih =>
    obtain ⟨hq, hfollow, hregions⟩ := arranged_cons.mp h
    rw [List.flatMap_cons, ← ih hregions, ← hq.filter_holds]
    obtain ⟨before, after, hr, hstart⟩ := hq
    have hlength : r.start + Source.byteLength (before ++ q.source).written = q.stop := by
      rw [Source.written_append, Source.byteLength_append, ← Nat.add_assoc, ← hstart, stop]
    rw [hr, Source.spansFrom_append, hlength]
    have hbefore : ∀ span ∈ (before ++ q.source).spansFrom r.start,
        ¬ ∃ q' ∈ regions, q'.Holds span := by
      rintro span hspan ⟨q', hq', hholds, -⟩
      have hbounds := Source.bounds_of_mem_spansFrom hspan
      have hfollows := hfollow q' hq'
      simp only [Before] at hfollows
      omega
    have hafter : ∀ span ∈ after.spansFrom q.stop, ¬ q.Holds span := by
      rintro span hspan ⟨-, hholds⟩
      have hbounds := Source.bounds_of_mem_spansFrom hspan
      omega
    simp only [List.exists_mem_cons_iff]
    apply filter_or_append hbefore hafter

end Region

namespace Source

/-! ### The arguments of an expression -/

/-- Nothing is lost where a source is divided before its name. -/
theorem splitAtName_append (s : Source) :
  s.splitAtName.1 ++ s.splitAtName.2 = s
  := by
  rw [splitAtName_eq]
  apply List.takeWhile_append_dropWhile

/-- Nothing is lost where a name is divided off. -/
theorem plain_splitName (s : Source) :
  plain s.splitName.1 ++ s.splitName.2 = s
  := by
  induction s with
  | nil => rfl
  | cons p s ih =>
    cases p with
    | comment c => rfl
    | char c =>
      rw [splitName]
      split
      · exact congrArg (.char c :: ·) ih
      · rfl

/-- A piece in front of the first argument is in front of all of them. -/
theorem separated_cons (p : Piece) (x : Source) (xs : List Source) :
  separated ((p :: x) :: xs) = p :: separated (x :: xs)
  := by
  cases xs with
  | nil => simp [separated]
  | cons y ys => simp only [separated, List.intercalate_cons_cons, List.cons_append]

theorem separated_cons_cons (x y : Source) (xs : List Source) :
  separated (x :: y :: xs) = x ++ .char ',' :: separated (y :: xs)
  := by
  rw [separated, List.intercalate_cons_cons, List.append_assoc]
  rfl

/-- Where a piece is put in front of a division, it belongs to the first argument. -/
theorem exists_of_map_cons {p : Piece} {division : Option (Source × List Source)} {x : Source}
    {xs : List Source} (h : (division.map fun (a, rest) => (p :: a, rest)) = some (x, xs)) :
  ∃ y, division = some (y, xs) ∧ x = p :: y
  := by
  obtain ⟨⟨y, ys⟩, hy, heq⟩ := Option.map_eq_some_iff.mp h
  obtain ⟨rfl, rfl⟩ := Prod.mk.inj heq
  use y, hy

/-- Dividing at commas loses nothing but the commas. -/
theorem exists_of_splitArguments {depth : Nat} {s x : Source} {xs : List Source}
    (h : splitArguments depth s = some (x, xs)) :
  ∃ after, s = separated (x :: xs) ++ .char '>' :: after
  := by
  fun_induction splitArguments depth s generalizing x xs with
  | case1 => cases h
  | case2 depth s ih | case4 s depth ih | case6 s depth ih | case7 depth p s _ _ _ ih =>
    obtain ⟨y, hy, rfl⟩ := exists_of_map_cons h
    obtain ⟨after, rfl⟩ := ih hy
    use after
    rw [separated_cons, List.cons_append]
  | case3 s =>
    obtain ⟨rfl, rfl⟩ := Prod.mk.inj (Option.some.inj h)
    use s
    rfl
  | case5 s ih =>
    obtain ⟨⟨y, ys⟩, hy, heq⟩ := Option.map_eq_some_iff.mp h
    obtain ⟨rfl, rfl⟩ := Prod.mk.inj heq
    obtain ⟨after, rfl⟩ := ih hy
    use after
    rw [separated_cons_cons]
    rfl

/-- What follows a name: there is no bracket, or the first bracket that is opened is closed as
well, and what is between them is divided at commas. -/
theorem divided_of_arguments? {s : Source} {xs : List Source} (h : arguments? s = some xs) :
  .char '<' ∉ s ∧ xs = []
    ∨ ∃ x ys after, s = s.takeWhile (· ≠ .char '<')
          ++ .char '<' :: (separated (x :: ys) ++ .char '>' :: after)
        ∧ splitArguments 0 (separated (x :: ys) ++ .char '>' :: after) = some (x, ys)
        ∧ xs = if ys = [] ∧ x.literal = [] then [] else x :: ys
  := by
  fun_induction arguments? s with
  | case1 => exact Or.inl ⟨List.not_mem_nil, (Option.some.inj h).symm⟩
  | case2 s =>
    obtain ⟨⟨x, ys⟩, hx, rfl⟩ := Option.map_eq_some_iff.mp h
    obtain ⟨after, rfl⟩ := exists_of_splitArguments hx
    right
    use x, ys, after
    rw [List.takeWhile_cons_of_neg (by simp)]
    exact ⟨rfl, hx, rfl⟩
  | case3 => cases h
  | case4 p s hopen _ ih =>
    rcases ih h with ⟨hs, hxs⟩ | ⟨x, ys, after, hs, hsplit, hxs⟩
    · left
      rw [List.mem_cons, not_or]
      exact ⟨⟨Ne.symm hopen, hs⟩, hxs⟩
    · right
      use x, ys, after
      rw [List.takeWhile_cons_of_pos (by simpa using hopen), List.cons_append, ← hs]
      exact ⟨rfl, hsplit, hxs⟩

/-- The arguments of an expression stand between brackets, and no other bracket is opened
between the name and these. -/
theorem exists_of_arguments? {s : Source} {xs : List Source} (h : arguments? s = some xs)
    (hne : xs ≠ []) :
  ∃ after, s = s.takeWhile (· ≠ .char '<') ++ .char '<' :: (separated xs ++ .char '>' :: after)
  := by
  rcases divided_of_arguments? h with ⟨-, hxs⟩ | ⟨x, ys, after, hs, -, rfl⟩
  · exact absurd hxs hne
  · rw [if_neg (fun hnone => hne (if_pos hnone))]
    use after

/-- An expression up to the bracket that opens its arguments. -/
def opening (s : Source) : List Char :=
  s.splitAtName.1.written ++ s.splitAtName.2.splitName.1
    ++ written (s.splitAtName.2.splitName.2.takeWhile (· ≠ .char '<')) ++ ['<']

/-- The arguments of an expression follow the opening bracket. -/
theorem exists_opening {s : Source} {xs : List Source}
    (h : s.splitAtName.2.splitName.2.arguments? = some xs) (hne : xs ≠ []) :
  ∃ before after, s = before ++ separated xs ++ .char '>' :: after ∧ written before = s.opening
  := by
  obtain ⟨after, hrest⟩ := exists_of_arguments? h hne
  use s.splitAtName.1 ++ plain s.splitAtName.2.splitName.1
    ++ s.splitAtName.2.splitName.2.takeWhile (· ≠ .char '<') ++ [.char '<'], after
  constructor
  · conv =>
      lhs
      rw [← splitAtName_append s, ← plain_splitName s.splitAtName.2, hrest]
    simp only [List.append_assoc, List.cons_append, List.nil_append]
  · simp only [written_append, written_plain, opening]
    rfl

end Source

namespace Region

variable {q r : Region}

/-- Regions from byte `start` on, one byte between any two. -/
def consecutive (start : Nat) : List Source → List Region
  | [] => []
  | x :: xs => ⟨start, x⟩ :: consecutive (start + Source.byteLength x.written + 1) xs

/-- No region starts before the first of them does. -/
theorem start_le_of_mem_consecutive {start : Nat} {xs : List Source}
    (h : q ∈ consecutive start xs) :
  start ≤ q.start
  := by
  induction xs generalizing start with
  | nil => cases h
  | cons x xs ih =>
    rcases List.mem_cons.mp h with rfl | h
    · apply Nat.le_refl
    · have hle := ih h
      omega

/-- Each of the regions ends before the next one starts, with a comma between them. -/
theorem pairwise_consecutive (start : Nat) (xs : List Source) :
  (consecutive start xs).Pairwise Before
  := by
  induction xs generalizing start with
  | nil => apply List.Pairwise.nil
  | cons x xs ih =>
    apply List.Pairwise.cons _ (ih _)
    intro q hq
    have hle := start_le_of_mem_consecutive hq
    simp only [Before, stop]
    omega

/-- The regions are regions of the given sources. -/
theorem source_consecutive (start : Nat) (xs : List Source) :
  (consecutive start xs).map Region.source = xs
  := by
  induction xs generalizing start with
  | nil => rfl
  | cons x xs ih => rw [consecutive, List.map_cons, ih]

/-- Sources with commas between any two are consecutive regions. -/
theorem within_of_mem_consecutive {before after : Source} {xs : List Source}
    (h : r.source = before ++ Source.separated xs ++ after)
    (hq : q ∈ consecutive (r.start + Source.byteLength before.written) xs) :
  q.Within r
  := by
  induction xs generalizing before with
  | nil => cases hq
  | cons x xs ih =>
    cases xs with
    | nil =>
      obtain rfl := List.mem_singleton.mp hq
      rw [Source.separated, List.intercalate_singleton] at h
      use before, after
    | cons y ys =>
      rw [Source.separated_cons_cons] at h
      rcases List.mem_cons.mp hq with rfl | hq
      · use before, .char ',' :: (Source.separated (y :: ys) ++ after)
        rw [h]
        simp only [List.append_assoc, List.cons_append, and_self]
      · have hlength : r.start + Source.byteLength before.written + Source.byteLength x.written + 1
            = r.start + Source.byteLength (Source.written (before ++ x ++ [Piece.char ','])) := by
          rw [Source.written_append, Source.byteLength_append, Source.written_append,
            Source.byteLength_append, ← Nat.add_assoc, ← Nat.add_assoc]
          rfl
        rw [hlength] at hq
        apply ih _ hq
        rw [h]
        simp only [List.append_assoc, List.cons_append, List.nil_append]

/-- What is before the name of the expression in a region. -/
def leading (r : Region) : Region := ⟨r.start, r.source.splitAtName.1⟩

/-- A region up to its first bracket. -/
def head (r : Region) : Region := ⟨r.start, r.source.takeWhile (· ≠ .char '<')⟩

/-- The arguments of the expression in a region. -/
def arguments (r : Region) : List Region :=
  consecutive (r.start + Source.byteLength r.source.opening)
    (r.source.splitAtName.2.splitName.2.arguments?.getD [])

/-- What is before the name of an expression is a stretch of it. -/
theorem within_leading (r : Region) :
  r.leading.Within r
  := by
  use [], r.source.splitAtName.2
  constructor
  · exact (Source.splitAtName_append r.source).symm
  · rfl

/-- No name starts before the name of an expression. -/
theorem startsNoName_of_mem_leading {p : Piece} (h : p ∈ r.leading.source) :
  Source.startsNoName p = true
  := by
  rw [leading, Source.splitAtName_eq] at h
  apply List.mem_takeWhile_imp h

/-- What is before the first bracket of an expression is a stretch of it. -/
theorem within_head (r : Region) :
  r.head.Within r
  := by
  use [], r.source.dropWhile (· ≠ .char '<')
  constructor
  · simp [head]
  · rfl

/-- Every argument of an expression is a stretch of it. -/
theorem within_of_mem_arguments (h : q ∈ r.arguments) :
  q.Within r
  := by
  rw [arguments] at h
  cases hxs : r.source.splitAtName.2.splitName.2.arguments? with
  | none =>
    rw [hxs] at h
    cases h
  | some xs =>
    rw [hxs, Option.getD_some] at h
    cases xs with
    | nil => cases h
    | cons x xs =>
      obtain ⟨before, after, hsource, hopening⟩ := Source.exists_opening hxs (List.cons_ne_nil _ _)
      rw [← hopening] at h
      apply within_of_mem_consecutive hsource h

/-- The text before the name is followed by the arguments, one after the other. -/
theorem arranged_arguments (r : Region) :
  r.Arranged (r.leading :: r.arguments)
  := by
  apply arranged_cons.mpr
  refine ⟨r.within_leading, ?_, fun _ => within_of_mem_arguments, pairwise_consecutive _ _⟩
  intro q hq
  have hle := start_le_of_mem_consecutive hq
  simp only [Source.opening, Source.byteLength_append] at hle
  simp only [Before, stop, leading]
  omega

/-- An expression has the comments before its name, the name that follows, and its arguments. -/
theorem of_ofSource? {e : Expression} (h : Expression.ofSource? r.source = .ok e) :
  r.leading.text = String.ofList e.comment
    ∧ (∃ after, r.source = r.leading.source ++ (Source.plain e.name.toList ++ after))
    ∧ r.arguments.map source = e.arguments
  := by
  rw [text, leading, ← Source.leading_of_ofSource? h]
  simp only [Expression.ofSource?] at h
  split at h
  · cases h
  · split at h
    · next harguments =>
      obtain rfl := Except.ok.inj h
      refine ⟨rfl, ?_, ?_⟩
      · use r.source.splitAtName.2.splitName.2
        rw [String.toList_ofList, Source.plain_splitName, Source.splitAtName_append]
      · rw [arguments, source_consecutive, harguments, Option.getD_some]
    · cases h

end Region

end BladeStyle
