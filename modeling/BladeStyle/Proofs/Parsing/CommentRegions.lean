import BladeStyle.Proofs.Parsing.Shape
import BladeStyle.Proofs.Registry.Builtin
import BladeStyle.Proofs.Source.Region

/-!
# Where comments are read

A node has the comments before its name, in the region that it is parsed from, and a literal
those in its argument before the first bracket.  These regions of a source follow one after the
other in the order in which a tree is walked through, a node before its parameters.  Hence a
tree has all comments that lie in one of them, each once and in the order of the source, and no
other comment is kept.
-/

namespace BladeStyle

/-! ### What several comments say -/

namespace Text

theorem unlines_eq_nil {ls : List (List Char)} (h : ∀ l ∈ ls, l ≠ []) :
  unlines ls = [] ↔ ls = []
  := by
  cases ls with
  | nil => simp
  | cons l ls =>
    have hl := h l List.mem_cons_self
    cases ls with
    | nil => simpa using hl
    | cons m ls => simp [unlines_cons_cons]

theorem unlines_append {ls ms : List (List Char)} (hls : ls ≠ []) (hms : ms ≠ []) :
  unlines (ls ++ ms) = unlines ls ++ '\n' :: unlines ms
  := by
  induction ls with
  | nil => exact absurd rfl hls
  | cons l ls ih =>
    obtain ⟨m, ms, rfl⟩ := List.exists_cons_of_ne_nil hms
    cases ls with
    | nil => simp [unlines_cons_cons]
    | cons k ls =>
      have hrest := ih (List.cons_ne_nil k ls)
      simp only [List.cons_append] at hrest ⊢
      rw [unlines_cons_cons, hrest, unlines_cons_cons, List.append_assoc, List.cons_append]

/-- Lines can be joined in groups, if groups without a line are left out. -/
theorem unlines_flatten {groups : List (List (List Char))} (h : ∀ ls ∈ groups, ∀ l ∈ ls, l ≠ []) :
  unlines ((groups.map unlines).filter (· ≠ [])) = unlines groups.flatten
  := by
  induction groups with
  | nil => rfl
  | cons ls groups ih =>
    obtain ⟨hls, hgroups⟩ := List.forall_mem_cons.mp h
    have hrest : ∀ l ∈ (groups.map unlines).filter (· ≠ []), l ≠ [] := by
      intro l hl
      simpa using (List.mem_filter.mp hl).2
    have hflatten : ∀ l ∈ groups.flatten, l ≠ [] := by
      intro l hl
      obtain ⟨ls, hls, hl⟩ := List.mem_flatten.mp hl
      apply hgroups ls hls l hl
    have hnil : (groups.map unlines).filter (· ≠ []) = [] ↔ groups.flatten = [] := by
      rw [← unlines_eq_nil hrest, ← unlines_eq_nil hflatten, ih hgroups]
    rw [List.map_cons, List.flatten_cons]
    by_cases hempty : ls = []
    · rw [hempty, unlines_nil, List.filter_cons_of_neg (by simp), ih hgroups, List.nil_append]
    · have hne : unlines ls ≠ [] := mt (unlines_eq_nil hls).mp hempty
      rw [List.filter_cons_of_pos (by simpa using hne)]
      by_cases hlast : groups.flatten = []
      · rw [hlast, hnil.mpr hlast, unlines_singleton, List.append_nil]
      · rw [unlines_append hempty hlast, ← List.singleton_append,
          unlines_append (List.cons_ne_nil _ _) (mt hnil.mp hlast), unlines_singleton,
          ih hgroups]

end Text

/-- Comments can be joined in groups. -/
theorem Comment.joinedText_flatten (groups : List (List Comment)) :
  Text.unlines ((groups.map joinedText).filter (· ≠ [])) = joinedText groups.flatten
  := by
  have hgroups : groups.map joinedText
      = (groups.map fun cs => (cs.map text).filter (· ≠ [])).map Text.unlines := by
    rw [List.map_map]
    rfl
  rw [hgroups, Text.unlines_flatten]
  · rw [joinedText, List.map_flatten, List.filter_flatten, List.map_map]
    rfl
  · intro ls hls l hl
    obtain ⟨cs, -, rfl⟩ := List.mem_map.mp hls
    simpa using (List.mem_filter.mp hl).2

/-! ### Walking through a tree -/

namespace Style

mutual

/-- The comments of a tree, a node before its parameters. -/
def commentList : Style → List String
  | ⟨_, _, _, _, params, _, comment⟩ => comment :: paramsCommentList params

/-- The comments of parameters and their children. -/
def paramsCommentList : List (Param Style) → List String
  | [] => []
  | ⟨_, _, slot, comment⟩ :: params => slotCommentList comment slot ++ paramsCommentList params

/-- The comment of a literal, or those of a child. -/
def slotCommentList (comment : String) : Slot Style → List String
  | .child s => commentList s
  | .number _ | .bits _ | .bool _ => [comment]
  | .empty => []

end

mutual

/-- The regions with the comments of a tree that is read from a region, a node before its
parameters. -/
def commentRegions (r : Region) : Style → List Region
  | ⟨_, _, _, _, params, _, _⟩ => r.leading :: paramsCommentRegions r.arguments params

/-- The regions with the comments of parameters and their children. -/
def paramsCommentRegions : List Region → List (Param Style) → List Region
  | a :: as, ⟨_, _, slot, _⟩ :: params =>
    slotCommentRegions a slot ++ paramsCommentRegions as params
  | _, _ => []

/-- The region with the comment of a literal, or those with the comments of a child. -/
def slotCommentRegions (a : Region) : Slot Style → List Region
  | .child s => commentRegions a s
  | .number _ | .bits _ | .bool _ => [a.head]
  | .empty => []

end

theorem commentList_eq (t : Style) :
  t.commentList = t.comment :: paramsCommentList t.params
  := by
  cases t
  rfl

theorem commentRegions_eq (r : Region) (t : Style) :
  commentRegions r t = r.leading :: paramsCommentRegions r.arguments t.params
  := by
  cases t
  rfl

/-- Arguments that follow a region give way to the regions of the parameters. -/
theorem arranged_paramsCommentRegions {q r : Region} {arguments : List Region}
    {params : List (Param Style)} (h : r.Arranged (q :: arguments))
    (hslots : ∀ p ∈ params, ∀ a : Region, a.Arranged (slotCommentRegions a p.slot)) :
  r.Arranged (q :: paramsCommentRegions arguments params)
  := by
  induction arguments generalizing q params with
  | nil =>
    simp only [paramsCommentRegions]
    exact h
  | cons a arguments ih =>
    obtain ⟨hq, hfollow, harguments⟩ := Region.arranged_cons.mp h
    obtain ⟨hqa, -⟩ := List.forall_mem_cons.mp hfollow
    cases params with
    | nil => apply hq.arranged
    | cons p params =>
      obtain ⟨hslot, hparams⟩ := List.forall_mem_cons.mp hslots
      have hrest := ih harguments hparams
      obtain ⟨-, hafter, -⟩ := Region.arranged_cons.mp hrest
      apply Region.Arranged.expand _ (hslot a)
      apply Region.arranged_cons.mpr
      use hq, List.forall_mem_cons.mpr ⟨hqa, fun q' hq' => hqa.trans (hafter q' hq')⟩

/-- The regions with the comments of a tree follow one after the other; by induction on the
tree. -/
theorem arranged_commentRegions (r : Region) (t : Style) :
  r.Arranged (commentRegions r t)
  := by
  induction t using Style.induction generalizing r with
  | step t ih =>
    rw [commentRegions_eq]
    apply arranged_paramsCommentRegions r.arranged_arguments
    intro p hp a
    cases hslot : p.slot with
    | number _ | bits _ | bool _ => apply a.within_head.arranged
    | empty => exact ⟨nofun, List.Pairwise.nil⟩
    | child c => apply ih p hp c hslot

/-! ### Trees that were read from a region -/

/-- A tree whose nodes have the names that come first in a region, and whose nodes and literals
have the comments that stand there. -/
inductive ReadFrom : Region → Style → Prop where
  | node {r : Region} {t : Style}
      (first : ∀ p ∈ r.leading.source, Source.startsNoName p = true)
      (name : ∃ after, r.source = r.leading.source ++ (Source.plain t.name.toList ++ after))
      (comment : t.comment = r.leading.text) (length : r.arguments.length = t.params.length)
      (literals : ∀ a p, (a, p) ∈ r.arguments.zip t.params → p.isLiteral = true →
        p.comment = a.head.text)
      (children : ∀ a p c, (a, p) ∈ r.arguments.zip t.params → p.slot = .child c →
        ReadFrom a c) :
      ReadFrom r t

theorem paramsCommentList_eq {arguments : List Region} {params : List (Param Style)}
    (hlength : arguments.length = params.length)
    (h : ∀ a p, (a, p) ∈ arguments.zip params →
      slotCommentList p.comment p.slot = (slotCommentRegions a p.slot).map Region.text) :
  paramsCommentList params = (paramsCommentRegions arguments params).map Region.text
  := by
  induction params generalizing arguments with
  | nil =>
    obtain rfl := List.length_eq_zero_iff.mp hlength
    rfl
  | cons p params ih =>
    obtain ⟨a, arguments, rfl⟩ := List.exists_cons_of_length_eq_add_one hlength
    rw [List.zip_cons_cons] at h
    have hparams := ih (by simpa using hlength) fun a' p' hp' =>
      h a' p' (List.mem_cons_of_mem _ hp')
    simp only [paramsCommentList, paramsCommentRegions, List.map_append, hparams,
      h a p List.mem_cons_self]

/-- The comments of a tree are those in its regions; by induction on how it was read. -/
theorem ReadFrom.commentList_eq_map {r : Region} {t : Style} (h : ReadFrom r t) :
  t.commentList = (commentRegions r t).map Region.text
  := by
  induction h with
  | @node r t _ _ hcomment hlength hliterals _ ih =>
    have hparams := paramsCommentList_eq hlength fun a p hp => by
      cases hslot : p.slot with
      | number _ | bits _ | bool _ =>
        have hliteral := hliterals a p hp (by rw [Param.isLiteral, hslot]; rfl)
        rw [slotCommentList, slotCommentRegions, hliteral]
        rfl
      | empty => rfl
      | child c => exact ih a p c hp hslot
    rw [commentList_eq, commentRegions_eq, List.map_cons, ← hparams, hcomment]

end Style

/-! ### Parsed trees -/

namespace Param

variable {parseChild : Source → Except ParseError Style} {parent : String}

/-- A literal has the comments before the first bracket of its argument. -/
theorem comment_of_read {index : Nat} {slot p : Param Style} {argument : Source}
    (hslot : slot.comment = "") (h : read parseChild parent index slot argument = .ok p)
    (hliteral : p.isLiteral = true) :
  p.comment = String.ofList argument.leadingText
  := by
  rw [(sameSlot_read h).isLiteral] at hliteral
  rw [read_eq _ _ _ hslot] at h
  split at h
  · cases h
  · split at h
    · cases h
    · obtain rfl := Except.ok.inj h
      exact if_pos hliteral

end Param

namespace Registry

variable {r : Registry}

/-- A node has the name and the comment of its expression, and each parameter is read from the
argument at its position. -/
theorem zip_of_parseNode (hr : r.Uncommented) {parseChild : Source → Except ParseError Style}
    {e : Expression} {t : Style} (h : r.parseNode parseChild e = .ok t) :
  t.name = e.name ∧ t.comment = String.ofList e.comment ∧ e.arguments.length = t.params.length
    ∧ ∀ argument p, (argument, p) ∈ e.arguments.zip t.params →
      (p.isLiteral = true → p.comment = String.ofList argument.leadingText)
        ∧ ∀ c, p.slot = .child c → parseChild argument = .ok c
  := by
  obtain ⟨template, ps, ht, -, hlength, hps, rfl⟩ := exists_readEach_of_parseNode h
  obtain ⟨entry, -, -, hname⟩ := mem_of_template? ht
  have hsame := Param.sameSlot_readEach hps hlength
  refine ⟨hname, rfl, hlength.trans hsame.length_eq.symm, ?_⟩
  intro argument p hp
  obtain ⟨i, slot, hslot, hread⟩ := Param.exists_read_of_mem_zip hps hp
  use Param.comment_of_read (hr.slots ht _ slot hslot) hread
  apply (Param.sound_of_read hread).2

/-- A tree is read from the region that it is parsed from; by induction on the number of levels
that are allowed. -/
theorem readFrom_of_parseWithin (hr : r.Uncommented) {levels : Nat} {region : Region} {t : Style}
    (h : r.parseWithin levels region.source = .ok t) :
  Style.ReadFrom region t
  := by
  induction levels generalizing region t with
  | zero => cases h
  | succ levels ih =>
    rw [parseWithin] at h
    split at h
    · cases h
    · next e he =>
      obtain ⟨hleading, hname, harguments⟩ := Region.of_ofSource? he
      obtain ⟨hname', hcomment, hlength, hparams⟩ := zip_of_parseNode hr h
      have hzip : ∀ a p, (a, p) ∈ region.arguments.zip t.params →
          (a.source, p) ∈ e.arguments.zip t.params := by
        intro a p hp
        rw [← harguments, List.zip_map_left]
        apply List.mem_map_of_mem (f := Prod.map Region.source id) hp
      constructor
      · exact fun p => Region.startsNoName_of_mem_leading
      · rw [hname']
        exact hname
      · rw [hcomment, hleading]
      · rw [← hlength, ← harguments, List.length_map]
      · exact fun a p hp => (hparams a.source p (hzip a p hp)).1
      · exact fun a p c hp hc => ih ((hparams a.source p (hzip a p hp)).2 c hc)

end Registry

/-- Which comments of a text are kept, and where.  Every node has the comments of the text that
end before its name, in the region of the text that it is read from, and every literal those
before the first bracket of its argument.  In the order of the tree these are the comments of
the text that lie in one of the regions, in the order of the text. -/
theorem parsed_comments {text : String} {t : Style} (h : Style.parse text = .ok t) :
  ∃ s, Source.ofText? text = .ok s
    ∧ Style.ReadFrom ⟨0, s⟩ t
    ∧ Region.Arranged ⟨0, s⟩ (Style.commentRegions ⟨0, s⟩ t)
    ∧ t.commentList = (Style.commentRegions ⟨0, s⟩ t).map (fun q =>
        String.ofList (Comment.joinedText ((s.spans.filter (q.Holds ·)).map Span.comment)))
    ∧ Text.unlines ((t.commentList.map String.toList).filter (· ≠ []))
      = Comment.joinedText ((s.spans.filter fun span =>
          ∃ q ∈ Style.commentRegions ⟨0, s⟩ t, q.Holds span).map Span.comment)
  := by
  rw [Style.parse, Registry.parse] at h
  split at h
  · cases h
  · next s hs =>
    have hread : Style.ReadFrom ⟨0, s⟩ t :=
      Registry.readFrom_of_parseWithin Registry.regular_builtin.uncommented h
    have harranged := Style.arranged_commentRegions ⟨0, s⟩ t
    have hlist := hread.commentList_eq_map
    use s, hs, hread, harranged
    constructor
    · rw [hlist]
      apply List.map_congr_left
      intro q hq
      have hfilter := (harranged.within q hq).filter_holds
      rw [Region.text, Source.spans, hfilter, Source.comment_spansFrom]
    · have htexts : (t.commentList.map String.toList)
          = ((Style.commentRegions ⟨0, s⟩ t).map fun q => q.source.comments).map
              Comment.joinedText := by
        rw [hlist, List.map_map, List.map_map]
        apply List.map_congr_left
        exact fun q _ => String.toList_ofList
      rw [htexts, Comment.joinedText_flatten, Source.spans, harranged.filter_holds,
        List.map_flatMap, List.flatMap_def]
      simp only [Source.comment_spansFrom]

/-- A layer of a colour, with comments in all places. -/
def commentedBlast : String :=
  "/* a */ // b\n<? BlastL /* c */ < /* d */ Rgb /* e */ < /* f */ 1 /* g */ , 2 <// h >\n>, "
    ++ "/* i */ 3> /* j */ > /* k */"

theorem parsed_comments_commentedBlast :
  ∃ t s, Style.parse commentedBlast = .ok t ∧ Source.ofText? commentedBlast = .ok s
    ∧ t.commentList = ["a\nb", "d", "f\ng", "", "i"]
    ∧ Comment.joinedText ((s.spans.filter fun span =>
        ∃ q ∈ Style.commentRegions ⟨0, s⟩ t, q.Holds span).map Span.comment)
      = "a\nb\nd\nf\ng\ni".toList
  := by
  have hcomments : (Style.parse commentedBlast).toOption.map Style.commentList
      = some ["a\nb", "d", "f\ng", "", "i"] := by
    decide +kernel
  obtain ⟨t, ht, hlist⟩ := exists_of_map_toOption_eq_some hcomments
  obtain ⟨s, hs, -, -, -, hjoined⟩ := parsed_comments ht
  refine ⟨t, s, ht, hs, hlist, ?_⟩
  rw [← hjoined, hlist]
  decide +kernel

end BladeStyle
