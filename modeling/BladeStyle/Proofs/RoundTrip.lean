import BladeStyle.Proofs.Parsing.Written
import BladeStyle.Proofs.Registry.Builtin

/-!
# Reading written trees

A well-formed tree of a regular registry can be written in both layouts, and what is
written is parsed to the tree with what is kept of its comments, unless the tree has too
many levels.  The tree and its source are built up together: from the sources of its
parameters, with padding and indentation, to the source of a node.
-/

namespace BladeStyle

namespace Registry

variable {r : Registry} {layout : Layout}

/-! ### The source of a parameter -/

/-- A finished parameter has a source, if its child has one. -/
theorem exists_readsParam (hr : r.Uncommented) {p : Param Style} (hsound : p.Sound)
    (hchild : ∀ c, p.slot = .child c →
      ∃ s : Source, c.write layout = .ok s.written ∧ Reads r layout c s) (apart : Bool) :
  ∃ core : Source, Style.writeSlot layout p.slot p.comment apart = some (.ok core.written)
    ∧ ReadsParam r layout p core
  := by
  have literal (hliteral : p.isLiteral = true) :
      ∃ core : Source, Style.writeSlot layout p.slot p.comment apart = some (.ok core.written)
        ∧ ReadsParam r layout p core := by
    use literalSource layout p
    constructor
    · rw [Style.writeSlot_of_isLiteral hliteral, literalSource, Source.written_append,
        Source.written_literalComment, Source.written_plain]
    · apply readsParam_literal hsound.slot hliteral
  cases hslot : p.slot with
  | number _ | bits _ | bool _ =>
    rw [← hslot]
    apply literal
    rw [Param.isLiteral, hslot]
    rfl
  | empty =>
    have hempty := hsound.slot
    rw [hslot] at hempty
    cases hempty
  | child c =>
    obtain ⟨s, hwrite, hs⟩ := hchild c hslot
    cases apart with
    | false =>
      use s
      simp only [Style.writeSlot, hwrite]
      exact ⟨rfl, readsParam_child hslot hsound hs⟩
    | true =>
      use s.flatMap Piece.indented
      simp only [Style.writeSlot, hwrite, Source.written_indented hs.stable]
      exact ⟨rfl, readsParam_child hslot hsound (hs.indented hr)⟩

/-- If each parameter is written as an argument that reads it back, all of them are. -/
theorem exists_forall₂_readsParam {params : List (Param Style)} {apart : Bool}
    (h : ∀ p ∈ params, ∃ core : Source,
      Style.writeSlot layout p.slot p.comment apart = some (.ok core.written)
        ∧ ReadsParam r layout p core) (style : String) :
  ∃ cores, Style.writeParams layout params style apart = .ok (cores.map Source.written)
    ∧ List.Forall₂ (ReadsParam r layout) params cores
  := by
  induction params with
  | nil => exact ⟨[], rfl, List.Forall₂.nil⟩
  | cons p params ih =>
    obtain ⟨hp, hparams⟩ := List.forall_mem_cons.mp h
    obtain ⟨core, hwrite, hcore⟩ := hp
    obtain ⟨cores, hwrites, hcores⟩ := ih hparams
    use core :: cores
    constructor
    · rw [Style.writeParams_cons hwrite, hwrites]
      rfl
    · apply List.Forall₂.cons hcore hcores

/-! ### The source of a node -/

/-- The source of what stands before the name of a node. -/
def headSource (layout : Layout) (t : Style) : Source :=
  Source.nodeComment layout t.comment ++ Source.plain (if t.category = .builtin then ['&'] else [])

/-- The source of what stands after the name of a node. -/
def bodySource (t : Style) (xs : List Source) : Source :=
  if t.category = .builtin then []
  else if t.fixedForm then Source.plain (Layout.ending t.category)
  else .char '<' :: (Source.separated xs ++ .char '>' :: Source.plain (Layout.ending t.category))

/-- The source of a node with the given arguments. -/
def nodeSource (layout : Layout) (t : Style) (xs : List Source) : Source :=
  headSource layout t ++ (Source.plain t.name.toList ++ bodySource t xs)

theorem comments_headSource (layout : Layout) (t : Style) :
  (headSource layout t).comments = (Source.nodeComment layout t.comment).comments
  := by
  rw [headSource, Source.comments_append, Source.comments_plain, List.append_nil]

/-- What is written before the name of a node starts no name. -/
theorem startsNoName_of_mem_headSource {t : Style} :
  ∀ p ∈ headSource layout t, Source.startsNoName p = true
  := by
  intro p hp
  rcases List.mem_append.mp hp with hp | hp
  · apply Source.startsNoName_of_isBlank
    apply Source.blank_nodeComment layout t.comment p hp
  · split at hp
    · obtain rfl := List.mem_singleton.mp hp
      rfl
    · cases hp

/-- What is written after the name of a node does not go on with it. -/
theorem splitName_bodySource (t : Style) (xs : List Source) :
  (bodySource t xs).splitName = ([], bodySource t xs)
  := by
  have hending : (Source.plain (Layout.ending t.category)).splitName
      = ([], Source.plain (Layout.ending t.category)) := by
    rw [Layout.ending]
    split <;> rfl
  rw [bodySource]
  split
  · rfl
  · split
    · apply hending
    · rfl

/-- The arguments that are written for the parameters of a node are the ones that are
read. -/
theorem arguments?_bodySource {t : Style} {xs : List Source}
    (hbare : t.fixedForm = true ∨ t.category = .builtin → xs = [])
    (hbalanced : ∀ x ∈ xs, Source.Balanced false x) (hliteral : ∀ x ∈ xs, x.literal ≠ []) :
  (bodySource t xs).arguments? = some xs
  := by
  have hending : (Source.plain (Layout.ending t.category)).arguments? = some [] := by
    rw [Layout.ending]
    split <;> rfl
  rw [bodySource]
  split
  · next hbuiltin => rw [hbare (Or.inr hbuiltin), Source.arguments?]
  · split
    · next hfixed => rw [hbare (Or.inl hfixed), hending]
    · apply Source.arguments?_brackets hbalanced hliteral

/-- The characters of a node outside its name and its parameters. -/
theorem isPart_mark {cs : List Char} (h : ∀ c ∈ cs, c = '&' ∨ c = '(' ∨ c = ')') :
  (Source.plain cs).IsPart
  where
  stable := by
    apply Source.isStable_plain
    intro hmem
    simpa using h '/' hmem
  balanced := by
    apply Source.Balanced.of_forall
    intro p hp
    obtain ⟨c, hc, rfl⟩ := Source.mem_plain.mp hp
    rcases h c hc with rfl | rfl | rfl <;> simp

/-- What is written after the name of a node is a part if the arguments are parts. -/
theorem isPart_bodySource {t : Style} {xs : List Source} (hxs : ∀ x ∈ xs, x.IsPart) :
  (bodySource t xs).IsPart
  := by
  have hending : (Source.plain (Layout.ending t.category)).IsPart := by
    apply isPart_mark
    rw [Layout.ending]
    split <;> simp
  rw [bodySource]
  split
  · apply Source.Padding.nil.isPart
  · split
    · apply hending
    · have hbrackets := (Source.IsPart.brackets hxs).append hending
      simpa using hbrackets

/-- A node that is written with parts for its parameters is an argument. -/
theorem isArgument_nodeSource {t : Style} {xs : List Source} (hname : Source.IsName t.name.toList)
    (hxs : ∀ x ∈ xs, x.IsPart) :
  (nodeSource layout t xs).IsArgument
  where
  toIsPart := by
    apply Source.IsPart.append
    · apply Source.IsPart.append (Source.isPart_nodeComment layout t.comment)
      apply isPart_mark
      split <;> simp
    · apply Source.IsPart.append (Source.IsPart.of_isInert hname.isInert)
      apply isPart_bodySource hxs
  literal := by
    have hne : t.name.toList ≠ [] := by
      obtain ⟨c, cs, e, -⟩ := hname
      simp [e]
    rw [nodeSource, Source.literal_append, Source.literal_append,
      Source.literal_plain_of_isInert hname.isInert]
    simp [hne]

/-- The text of a node is that of its source. -/
theorem write_eq_nodeSource {t : Style} {texts : List (List Char)} {xs : List Source}
    (hfixed : t.fixedForm = true → xs = [])
    (hwrite : Style.writeParams layout t.params t.name (Style.isApart layout t.params) = .ok texts)
    (hxs : Layout.arrange (Style.isApart layout t.params) texts
      = Source.written (Source.separated xs)) :
  t.write layout = .ok (nodeSource layout t xs).written
  := by
  rw [Style.write_eq, nodeSource, headSource, bodySource]
  by_cases hbuiltin : t.category = .builtin
  · simp [hbuiltin, Source.written_nodeComment]
  · cases hform : t.fixedForm with
    | true =>
      obtain rfl := hfixed hform
      simp [hbuiltin, hwrite, hxs, Except.map, Layout.bracketed, Source.written_nodeComment,
        Source.separated]
    | false =>
      simp [hbuiltin, hwrite, hxs, Except.map, Layout.bracketed, Source.written_nodeComment,
        Piece.written]

/-! ### Reading a node back -/

/-- Layout around what reads a parameter back leaves it an argument. -/
theorem isArgument_of_padded {params : List (Param Style)} {cores xs : List Source}
    (hcores : List.Forall₂ (ReadsParam r layout) params cores)
    (hxs : List.Forall₂ Source.Padded cores xs) :
  ∀ x ∈ xs, x.IsArgument
  := by
  induction hcores generalizing xs with
  | nil =>
    rw [List.forall₂_nil_left_iff.mp hxs]
    simp
  | cons hcore _ ih =>
    obtain ⟨x, xs, hx, hxs', rfl⟩ := List.forall₂_cons_left_iff.mp hxs
    rw [List.forall_mem_cons]
    constructor
    · constructor
      · apply hx.isPart hcore.toIsPart
      · rw [hx.literal]
        exact hcore.literal
    · apply ih hxs'

/-- The source of a node is read as that node with the comments that are kept, or is too
deep. -/
theorem parseWithin_nodeSource (hr : r.Regular) {t : Style} (h : Style.WellFormedNode r t)
    {cores xs : List Source} (hcores : List.Forall₂ (ReadsParam r layout) t.params cores)
    (hxs : List.Forall₂ Source.Padded cores xs)
    (hbare : t.fixedForm = true ∨ t.category = .builtin → xs = []) (levels : Nat) :
  r.parseWithin (levels + 1) (nodeSource layout t xs)
    = if t.height < levels + 1 then .ok (t.mapComments layout.kept)
      else .error (.tooDeep levelLimit)
  := by
  obtain ⟨template, ht, hshape⟩ := h.shape
  have harguments := isArgument_of_padded hcores hxs
  have hlength : xs.length = t.params.length := (hcores.length_eq.trans hxs.length_eq).symm
  have hsource : Expression.ofSource? (nodeSource layout t xs)
      = .ok ⟨(Source.nodeComment layout t.comment).comments, t.name, xs⟩ := by
    rw [nodeSource, Source.ofSource?_named startsNoName_of_mem_headSource (h.isName hr)
      (splitName_bodySource t xs) (arguments?_bodySource hbare
        (fun x hx => (harguments x hx).balanced) (fun x hx => (harguments x hx).literal)),
      comments_headSource, String.ofList_toList]
  have harity : ¬ (xs.length < template.params.length
      ∨ template.params.length < xs.length ∧ ¬ template.isVariadic = true) := by
    have hmin := hshape.length_le
    rcases hshape.repeats with hmax | hvariadic
    · omega
    · simp [hvariadic, hlength, hmin]
  have hparams := hshape.params
  rw [← hlength] at hparams
  rw [parseWithin, hsource]
  simp only [parseNode_eq, ht, if_neg harity, Expression.comment, Source.joinedText_nodeComment,
    readEach_of_readsParam hcores hxs hparams (hr.uncommented.slots ht _), Style.height_eq t]
  split
  · simp [Except.map, Style.mapComments_eq_map, hshape.name, hshape.title, hshape.category,
      hshape.fixedForm, hshape.declared]
  · rfl

/-- A well-formed tree is written, and its source reads back. -/
theorem exists_reads (hr : r.Regular) {t : Style} (h : t.WellFormed r) (layout : Layout) :
  ∃ s : Source, t.write layout = .ok s.written ∧ Reads r layout t s
  := by
  induction h with
  | @node t here _ ih =>
    obtain ⟨cores, hwrite, hcores⟩ := exists_forall₂_readsParam (fun p hp =>
      exists_readsParam hr.uncommented (here.params p hp) (ih p hp) (Style.isApart layout t.params))
      t.name
    have hlength := hcores.length_eq
    obtain ⟨xs, hxs, harrange⟩ :=
      Source.exists_separated (Style.isApart layout t.params) cores (by
        intro hapart hnil
        apply Style.params_ne_nil_of_isApart hapart
        simpa [hnil] using hlength)
    have hbare : t.fixedForm = true ∨ t.category = .builtin → xs = [] := by
      intro hb
      have hparams := here.params_eq_nil hr hb
      rw [hparams, List.forall₂_nil_left_iff] at hcores
      rw [hcores, List.forall₂_nil_left_iff] at hxs
      exact hxs
    have harguments := isArgument_of_padded hcores hxs
    use nodeSource layout t xs
    constructor
    · apply write_eq_nodeSource (fun hfixed => hbare (Or.inl hfixed)) hwrite harrange
    · constructor
      · apply isArgument_nodeSource (here.isName hr)
        exact fun x hx => (harguments x hx).toIsPart
      · intro levels
        cases levels with
        | zero => rfl
        | succ levels => apply parseWithin_nodeSource hr here hcores hxs hbare

/-- Layout around a source does not change what it is read as. -/
theorem Reads.padded {t : Style} {s x : Source} (h : Reads r layout t s) (hx : s.Padded x) :
  Reads r layout t x
  where
  toIsPart := hx.isPart h.toIsPart
  literal := by
    rw [hx.literal]
    exact h.literal
  parse levels := by rw [parseWithin_padded hx, h.parse]

/-- What is written of a tree is parsed to the tree, unless it has too many levels. -/
theorem Reads.parse_ofList {t : Style} {s : Source} (h : Reads r layout t s) :
  r.parse (String.ofList s.written)
    = if t.height ≤ levelLimit then .ok (t.mapComments layout.kept)
      else .error (.tooDeep levelLimit)
  := by
  rw [Registry.parse, Source.ofText?, String.toList_ofList, Source.ofChars?_written h.stable]
  simp only [Except.mapError, h.parse, Nat.lt_succ_iff]

/-- A well-formed tree of a regular registry has a text in every layout, and the text is
parsed to the tree, unless it has too many levels. -/
theorem exists_text (hr : r.Regular) {t : Style} (h : t.WellFormed r) (layout : Layout) :
  ∃ text, t.text layout = .ok text
    ∧ r.parse text
      = if t.height ≤ levelLimit then .ok (t.mapComments layout.kept)
        else .error (.tooDeep levelLimit)
  := by
  obtain ⟨s, hwrite, hs⟩ := exists_reads hr h layout
  use String.ofList s.written
  constructor
  · rw [Style.text, hwrite]
    rfl
  · apply hs.parse_ofList

/-- Round trip of the multi-line layout.  The text of a well-formed tree of a regular
registry is parsed to the tree with every comment normalised: closing markers are broken
up, lines are trimmed and outer blank lines dropped.  A tree that is more than 64 steps high
is refused as too deep.  The built-in registry is regular. -/
theorem parse_text_multiline :
  builtin.Regular
    ∧ ∀ (r : Registry) (t : Style), r.Regular → t.WellFormed r →
      ∃ text, t.text .multiline = .ok text
        ∧ r.parse text
          = (if t.height ≤ 64 then .ok (t.mapComments Layout.multiline.kept)
            else .error (.tooDeep 64))
        ∧ (t.Everywhere (Style.CommentsFixed Layout.multiline.kept) →
          t.mapComments Layout.multiline.kept = t)
  := by
  use regular_builtin
  intro r t hr h
  obtain ⟨s, hwrite, hs⟩ := exists_reads hr h .multiline
  use String.ofList s.written
  refine ⟨?_, hs.parse_ofList, Style.mapComments_eq_self⟩
  rw [Style.text, hwrite]
  rfl

/-! ### A tree with difficult comments -/

/-- A colour with two numbers. -/
def sampleColor : Style :=
  .ofParams "Rgb" "RGB Color" .color [.ofNumber "Red" 0, .ofNumber "Green" 0]

/-- A layer of one colour. -/
def sampleLayer : Style :=
  .ofParams "BlastL" "Blast" .layer [.ofStyle "Color" (CategorySet.ofList [.color]) none]

def sampleRegistry : Registry := .ofList [(.color, sampleColor), (.layer, sampleLayer)]

/-- A colour with a comment of its own and one before a literal. -/
def commentedColor (comment comment' : String) : Style :=
  { sampleColor with
    params := [.ofNumber "Red" (-7), { Param.ofNumber "Green" 255 with comment := comment' }]
    comment := comment }

/-- A layer of that colour. -/
def commentedLayer (comment comment' : String) : Style :=
  { sampleLayer with
    params :=
      [.ofStyle "Color" (CategorySet.ofList [.color]) (commentedColor comment comment')] }

theorem wellFormed_commentedLayer (comment comment' : String) :
  (commentedLayer comment comment').WellFormed sampleRegistry
  := by
  have hcolor : (commentedColor comment comment').WellFormed sampleRegistry := by
    apply Style.Everywhere.node
    · constructor
      · use sampleColor
        constructor
        · rfl
        · exact ⟨rfl, rfl, rfl, rfl, rfl, Or.inl (Nat.le_refl 2),
            .cons ⟨rfl, rfl, rfl⟩ (.cons ⟨rfl, rfl, rfl⟩ .nil)⟩
      · simp only [commentedColor, List.forall_mem_cons]
        exact ⟨⟨nearestNumber_mem (-7), nofun⟩, ⟨nearestNumber_mem 255, nofun⟩, nofun⟩
    · simp [commentedColor, Param.ofNumber]
  apply Style.Everywhere.node
  · constructor
    · use sampleLayer
      constructor
      · rfl
      · exact ⟨rfl, rfl, rfl, rfl, rfl, Or.inl (Nat.le_refl 1), .cons ⟨rfl, rfl, rfl⟩ .nil⟩
    · intro p hp
      obtain rfl := List.mem_singleton.mp hp
      constructor
      · have haccepts : ((CategorySet.ofList [.color]).inter CategorySet.nodes).accepts .color := by
          decide +kernel
        apply haccepts
      · exact fun _ => rfl
  · intro p hp c hc
    obtain rfl := List.mem_singleton.mp hp
    obtain rfl := Slot.child.inj hc
    exact hcolor

theorem parse_text_multiline_commentedLayer :
  sampleRegistry.Regular ∧ (commentedLayer "*/ Rgb<1,\n  // 2> " "a\n").WellFormed sampleRegistry
    ∧ ∃ text, (commentedLayer "*/ Rgb<1,\n  // 2> " "a\n").text .multiline = .ok text
      ∧ sampleRegistry.parse text = .ok (commentedLayer "* / Rgb<1,\n// 2>" "a")
  := by
  have hr : sampleRegistry.Regular := by
    unfold Regular
    decide +kernel
  have h := wellFormed_commentedLayer "*/ Rgb<1,\n  // 2> " "a\n"
  obtain ⟨text, htext, hparse, -⟩ := parse_text_multiline.2 sampleRegistry _ hr h
  use hr, h, text, htext
  rw [hparse]
  decide +kernel

end Registry

end BladeStyle
