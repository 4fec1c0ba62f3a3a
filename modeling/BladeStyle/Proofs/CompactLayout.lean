import BladeStyle.Proofs.RoundTrip

/-!
# The compact layout

The two layouts of a tree denote the same style.  The compact one is a single line, whatever
the comments of the tree are, and what is read back of it differs from what is read back of
the multi-line one in the comments alone.  Without comments the texts differ in nothing but
spaces, tabs and line feeds.
-/

namespace BladeStyle

namespace Layout

/-! ### A single line -/

/-- The markers of a comment on one line bring in no line feed. -/
theorem lineFeed_not_mem_inlineComment {cs : List Char} (h : '\n' ∉ cs) :
  '\n' ∉ inlineComment cs
  := by
  simp [inlineComment, h]

/-- The compact layout writes the comment of a node on one line. -/
theorem lineFeed_not_mem_nodeComment (cs : List Char) :
  '\n' ∉ compact.nodeComment cs
  := by
  cases cs with
  | nil => exact List.not_mem_nil
  | cons c cs =>
    apply lineFeed_not_mem_inlineComment
    apply lineFeed_not_mem_flat

/-- The compact layout writes the comments of literals and of nodes alike. -/
theorem literalComment_compact (cs : List Char) :
  compact.literalComment cs = compact.nodeComment cs
  := by
  cases cs <;> rfl

/-! ### Condensed texts -/

/-- The text without spaces, tabs and line feeds. -/
def condensed (cs : List Char) : List Char := cs.filter fun c => c ≠ ' ' ∧ c ≠ '\t' ∧ c ≠ '\n'

@[simp]
theorem condensed_append (cs ds : List Char) :
  condensed (cs ++ ds) = condensed cs ++ condensed ds
  := List.filter_append cs ds

theorem condensed_cons (c : Char) (cs : List Char) :
  condensed (c :: cs) = condensed [c] ++ condensed cs
  := condensed_append [c] cs

/-- Indentation is condensed away. -/
theorem condensed_indented (cs : List Char) :
  condensed (indented cs) = condensed cs
  := by
  induction cs with
  | nil => rfl
  | cons c cs ih =>
    rw [indented_cons, condensed_append, ih, condensed_cons]
    split
    · next hc =>
      rw [hc]
      rfl
    · rfl

/-- Texts with a separator between them lose the layout of the texts and that of the
separator. -/
theorem condensed_intercalate (separator : List Char) (texts : List (List Char)) :
  condensed (separator.intercalate texts)
    = (condensed separator).intercalate (texts.map condensed)
  := by
  induction texts with
  | nil => rfl
  | cons text texts ih =>
    cases texts with
    | nil => simp only [List.intercalate_singleton, List.map_cons, List.map_nil]
    | cons text' texts =>
      simp only [List.intercalate_cons_cons, List.map_cons, condensed_append] at ih ⊢
      rw [ih]

/-- However parameters are arranged, they are condensed to the same text. -/
theorem condensed_arrange (apart : Bool) (texts : List (List Char)) :
  condensed (arrange apart texts) = [','].intercalate (texts.map condensed)
  := by
  cases apart with
  | true =>
    have hlines : (texts.map fun p => '\n' :: '\t' :: p).map condensed = texts.map condensed := by
      rw [List.map_map]
      apply List.map_congr_left
      intro text _
      rfl
    have harrange : arrange true texts
        = [','].intercalate (texts.map fun p => '\n' :: '\t' :: p) ++ ['\n'] := rfl
    rw [harrange, condensed_append, condensed_intercalate, hlines]
    exact List.append_nil _
  | false => exact condensed_intercalate [',', ' '] texts

/-- Brackets are not layout. -/
theorem condensed_bracketed (fixedForm : Bool) (cs : List Char) :
  condensed (bracketed fixedForm cs) = bracketed fixedForm (condensed cs)
  := by
  cases fixedForm with
  | true => rfl
  | false =>
    simp only [bracketed, Bool.false_eq_true, if_false, condensed_append]
    rfl

/-- The ending of a wrapper has no layout. -/
theorem condensed_ending (category : Category) :
  condensed (ending category) = ending category
  := by
  rw [ending]
  split <;> rfl

end Layout

namespace Style

variable {layout layout' : Layout} {apart apart' : Bool}

/-! ### Condensed trees -/

/-- Without a comment a parameter is condensed to the same text in both layouts, if its child
is. -/
theorem condensed_writeSlot {p : Param Style} (hcomment : p.comment = "")
    (hchild : ∀ c, p.slot = .child c →
      (c.write layout).map Layout.condensed = (c.write layout').map Layout.condensed) :
  (writeSlot layout p.slot p.comment apart).map (Except.map Layout.condensed)
    = (writeSlot layout' p.slot p.comment apart').map (Except.map Layout.condensed)
  := by
  rw [hcomment]
  cases hslot : p.slot with
  | number _ | bits _ | bool _ | empty => rfl
  | child c =>
    have hindented : ∀ (l : Layout) (a : Bool),
        Except.map Layout.condensed
            ((c.write l).map fun text => if a then Layout.indented text else text)
          = (c.write l).map Layout.condensed := by
      intro l a
      cases c.write l with
      | error e => rfl
      | ok text =>
        apply congrArg Except.ok
        cases a with
        | true => apply Layout.condensed_indented
        | false => rfl
    simp only [writeSlot, Option.map_some, hindented, hchild c hslot]

/-- Parameters that are written alike up to layout one by one are written alike up to layout
together. -/
theorem condensed_writeParams {params : List (Param Style)}
    (h : ∀ p ∈ params, (writeSlot layout p.slot p.comment apart).map (Except.map Layout.condensed)
      = (writeSlot layout' p.slot p.comment apart').map (Except.map Layout.condensed))
    (style : String) :
  (writeParams layout params style apart).map (List.map Layout.condensed)
    = (writeParams layout' params style apart').map (List.map Layout.condensed)
  := by
  induction params with
  | nil => rfl
  | cons p params ih =>
    obtain ⟨hp, hparams⟩ := List.forall_mem_cons.mp h
    have hrest := ih hparams
    have hcons : ∀ (text : List Char) (rest : Except EmptySlot (List (List Char))),
        (rest.map (text :: ·)).map (List.map Layout.condensed)
          = (rest.map (List.map Layout.condensed)).map (Layout.condensed text :: ·) := by
      rintro text (e | texts) <;> rfl
    obtain ⟨name, kind, slot, comment⟩ := p
    simp only [writeParams] at hp ⊢
    generalize writeSlot layout slot comment apart = written at hp
    generalize writeSlot layout' slot comment apart' = written' at hp
    rcases written with _ | (e | text)
    · cases written' with
      | none => rfl
      | some outcome => cases hp
    · rcases written' with _ | (e' | text')
      · cases hp
      · obtain rfl := Except.error.inj (Option.some.inj hp)
        rfl
      · cases Option.some.inj hp
    · rcases written' with _ | (e' | text')
      · cases hp
      · cases Option.some.inj hp
      · have htext : Layout.condensed text = Layout.condensed text' :=
          Except.ok.inj (Option.some.inj hp)
        dsimp only
        rw [hcons, hcons, hrest, htext]

/-- A tree without comments is condensed to the same text in both layouts. -/
theorem condensed_write (layout layout' : Layout) {t : Style} (h : t.Everywhere Uncommented) :
  (t.write layout).map Layout.condensed = (t.write layout').map Layout.condensed
  := by
  induction h with
  | @node t here _ ih =>
    have hparams :
        (writeParams layout t.params t.name (isApart layout t.params)).map
            (List.map Layout.condensed)
          = (writeParams layout' t.params t.name (isApart layout' t.params)).map
            (List.map Layout.condensed) := by
      apply condensed_writeParams
      exact fun p hp => condensed_writeSlot (here.params p hp) (ih p hp)
    have hnode : ∀ (l : Layout) (a : Bool) (written : Except EmptySlot (List (List Char))),
        (written.map fun texts => l.nodeComment "".toList ++ t.name.toList
            ++ Layout.bracketed t.fixedForm (Layout.arrange a texts)
            ++ Layout.ending t.category).map Layout.condensed
          = (written.map (List.map Layout.condensed)).map fun texts =>
            Layout.condensed t.name.toList
              ++ Layout.bracketed t.fixedForm ([','].intercalate texts)
              ++ Layout.ending t.category := by
      rintro l a (e | texts)
      · rfl
      · apply congrArg Except.ok
        simp only [Layout.condensed_append, Layout.condensed_bracketed, Layout.condensed_arrange,
          Layout.condensed_ending]
        rfl
    rw [write_eq, write_eq, here.node]
    split
    · rfl
    · rw [hnode, hnode, hparams]

/-! ### A tree on one line -/

/-- The compact text of a tree whose names have no line feed is a single line. -/
theorem lineFeed_not_mem_write {t : Style} (hname : t.Everywhere fun s => '\n' ∉ s.name.toList)
    {cs : List Char} (hwrite : t.write .compact = .ok cs) :
  '\n' ∉ cs
  := by
  have hP : Admissible .compact (· ≠ '\n') := ⟨by simp, nofun⟩
  have hnot : ∀ {ds : List Char}, '\n' ∉ ds → ∀ c ∈ ds, c ≠ '\n' := by
    rintro ds hds c hc rfl
    exact hds hc
  have hspelt : t.Everywhere (SpeltIn .compact (· ≠ '\n')) := by
    apply hname.imp
    intro s hs
    constructor
    · exact hnot hs
    · exact hnot (Layout.lineFeed_not_mem_nodeComment _)
    · intro p _ _
      rw [Layout.literalComment_compact]
      exact hnot (Layout.lineFeed_not_mem_nodeComment _)
    · exact fun p _ c hc => Source.ne_of_isInert (p.slot.isInert_literalText c hc) rfl
  intro hmem
  exact forall_mem_write hP hspelt hwrite '\n' hmem rfl

/-- The names in a well-formed style have no line feed. -/
theorem lineFeed_not_mem_name {r : Registry} (hr : r.Regular) {t : Style} (h : t.WellFormed r) :
  t.Everywhere fun s => '\n' ∉ s.name.toList
  := by
  apply h.imp
  intro s hs hmem
  exact Source.ne_of_isInert ((hs.isName hr).isInert '\n' hmem) rfl rfl

end Style

namespace Registry

/-- The compact layout denotes the same style.  Of a well-formed tree of a regular registry it
is a single line, and it is parsed to the tree with every comment normalised: closing markers
are broken up, line feeds become spaces and the ends are trimmed.  Without comments what is
parsed is the same as for the multi-line layout, and the texts of a tree without comments
differ only in spaces, tabs and line feeds. -/
theorem parse_text_compact :
  builtin.Regular
    ∧ ∀ (r : Registry) (t : Style), r.Regular → t.WellFormed r →
      ∃ text wide, t.text .compact = .ok text ∧ t.text .multiline = .ok wide
        ∧ '\n' ∉ text.toList
        ∧ (t.height ≤ 64 → r.parse text = .ok (t.mapComments fun comment =>
          String.ofList (Text.trim (Layout.flat (Layout.unclosing comment.toList)))))
        ∧ (r.parse text).map Style.withoutComments = (r.parse wide).map Style.withoutComments
        ∧ (t.withoutComments = t → Layout.condensed text.toList = Layout.condensed wide.toList)
  := by
  use regular_builtin
  intro r t hr h
  obtain ⟨text, htext, hparse⟩ := exists_text hr h .compact
  obtain ⟨wide, hwide, hparse'⟩ := exists_text hr h .multiline
  obtain ⟨cs, hcs, rfl⟩ := exists_of_map_eq_ok htext
  obtain ⟨ds, hds, rfl⟩ := exists_of_map_eq_ok hwide
  refine ⟨_, _, htext, hwide, ?_, ?_, ?_, ?_⟩
  · rw [String.toList_ofList]
    apply Style.lineFeed_not_mem_write (Style.lineFeed_not_mem_name hr h) hcs
  · intro hheight
    rw [hparse, levelLimit, if_pos hheight]
    rfl
  · rw [hparse, hparse']
    split
    · simp only [Except.map, Style.withoutComments, Style.mapComments_mapComments]
      rfl
    · rfl
  · intro hbare
    have hcondensed := Style.condensed_write .compact .multiline (Style.everywhere_uncommented t)
    rw [hbare, hcs, hds] at hcondensed
    rw [String.toList_ofList, String.toList_ofList]
    exact Except.ok.inj hcondensed

theorem parse_text_compact_commentedLayer :
  sampleRegistry.Regular
    ∧ (commentedLayer "*/ Rgb<1,\n  // 2> " "/*\n*/").WellFormed sampleRegistry
    ∧ ∃ text, (commentedLayer "*/ Rgb<1,\n  // 2> " "/*\n*/").text .compact = .ok text
      ∧ '\n' ∉ text.toList
      ∧ sampleRegistry.parse text = .ok (commentedLayer "* / Rgb<1,   // 2>" "/* * /")
    ∧ ∃ text wide, (commentedLayer "" "").text .compact = .ok text
      ∧ (commentedLayer "" "").text .multiline = .ok wide
      ∧ Layout.condensed text.toList = Layout.condensed wide.toList
  := by
  have hr : sampleRegistry.Regular := by
    unfold Regular
    decide +kernel
  have h := wellFormed_commentedLayer "*/ Rgb<1,\n  // 2> " "/*\n*/"
  obtain ⟨text, wide, htext, -, hline, hparse, -⟩ := parse_text_compact.2 sampleRegistry _ hr h
  obtain ⟨text', wide', htext', hwide', -, -, -, hcondensed⟩ :=
    parse_text_compact.2 sampleRegistry _ hr (wellFormed_commentedLayer "" "")
  have hbare : (commentedLayer "" "").withoutComments = commentedLayer "" "" := by
    decide +kernel
  refine ⟨hr, h, text, htext, hline, ?_, text', wide', htext', hwide', hcondensed hbare⟩
  rw [hparse (by decide +kernel)]
  decide +kernel

end Registry

end BladeStyle
