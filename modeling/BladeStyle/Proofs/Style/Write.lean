import BladeStyle.Proofs.Except
import BladeStyle.Proofs.Literal.Written
import BladeStyle.Proofs.Source.Assembly
import BladeStyle.Proofs.Style.Tree
import BladeStyle.Proofs.Style.WrittenComment

/-!
# Writing trees

What is written of a node depends on its name, its form, its comment as it is laid out and
what is written of its parameters.  Hence comments that are laid out in the same way leave
the text alone, and a condition that names, values and comments meet is met by the text: that
of a tree without comments has no slash in it.
-/

namespace BladeStyle

/-! ### Literals -/

/-- The text of the value in a slot; there is none for a node. -/
def Slot.literalText : Slot Style → List Char
  | number n => Literal.writeNumber n
  | bits b => Literal.writeBits b
  | bool b => Literal.writeBool b
  | empty | child _ => []

/-- Values are written with digits, letters and a minus sign. -/
theorem Slot.isInert_literalText (s : Slot Style) :
  ∀ c ∈ s.literalText, Source.isInert c = true
  := by
  intro c hc
  cases s with
  | number n =>
    rcases Literal.mem_writeNumber hc with h | rfl
    · simp [Source.isInert, Char.isAlphanum, h]
    · rfl
  | bits b => rcases Literal.mem_writeBits hc with rfl | rfl | rfl <;> rfl
  | bool b =>
    have key : ∀ b, (Literal.writeBool b).all Source.isInert = true := by decide
    apply List.all_eq_true.mp (key b) c hc
  | empty | child _ => cases hc

/-- A value is never written as an empty text. -/
theorem Slot.literalText_ne_nil {s : Slot Style} (h : s.isLiteral = true) :
  s.literalText ≠ []
  := by
  cases s with
  | number n =>
    cases n with
    | ofNat n => apply Nat.toDigits_ne_nil
    | negSucc n => apply List.cons_ne_nil
  | bits b => apply List.cons_ne_nil
  | bool b => cases b <;> apply List.cons_ne_nil
  | empty | child _ => cases h

namespace Style

variable {layout : Layout}

/-! ### A node and its parameters -/

/-- A built-in node is written as a reference to its name, and any other one as its name,
its parameters between brackets and its ending, each with its comment in front. -/
theorem write_eq (s : Style) :
  s.write layout
    = if s.category = .builtin then
        .ok (layout.nodeComment s.comment.toList ++ '&' :: s.name.toList)
      else
        (writeParams layout s.params s.name (isApart layout s.params)).map fun texts =>
          layout.nodeComment s.comment.toList ++ s.name.toList
            ++ Layout.bracketed s.fixedForm (Layout.arrange (isApart layout s.params) texts)
            ++ Layout.ending s.category
  := by
  cases s
  rfl

/-- If the first parameter can be written, the others decide whether all of them can. -/
theorem writeParams_cons {p : Param Style} {params : List (Param Style)} {style : String}
    {apart : Bool} {text : List Char}
    (h : writeSlot layout p.slot p.comment apart = some (.ok text)) :
  writeParams layout (p :: params) style apart
    = (writeParams layout params style apart).map (text :: ·)
  := by
  cases p
  simp only at h
  simp only [writeParams, h]

/-- A literal is written as its comment and its value. -/
theorem writeSlot_of_isLiteral {p : Param Style} (h : p.isLiteral = true) (apart : Bool) :
  writeSlot layout p.slot p.comment apart
    = some (.ok (layout.literalComment p.comment.toList ++ p.slot.literalText))
  := by
  rw [Param.isLiteral] at h
  cases hslot : p.slot with
  | number _ | bits _ | bool _ => rfl
  | empty | child _ =>
    rw [hslot] at h
    cases h

/-- Parameters are put on lines of their own only if there are some. -/
theorem params_ne_nil_of_isApart {params : List (Param Style)} (h : isApart layout params = true) :
  params ≠ []
  := by
  rintro rfl
  simp [isApart] at h

/-- All parameters are written if the first one is and the others are. -/
theorem writeParams_cons_eq_ok {p : Param Style} {params : List (Param Style)} {style : String}
    {apart : Bool} {texts : List (List Char)}
    (h : writeParams layout (p :: params) style apart = .ok texts) :
  ∃ text rest, writeSlot layout p.slot p.comment apart = some (.ok text)
    ∧ writeParams layout params style apart = .ok rest ∧ texts = text :: rest
  := by
  obtain ⟨name, kind, slot, comment⟩ := p
  simp only [writeParams] at h
  split at h
  · next text htext =>
    obtain ⟨rest, hrest, rfl⟩ := exists_of_map_eq_ok h
    use text, rest
  · cases h
  · cases h

/-- Where all parameters are written, each of them is. -/
theorem exists_writeSlot_of_mem {params : List (Param Style)} {style : String} {apart : Bool}
    {texts : List (List Char)} (h : writeParams layout params style apart = .ok texts)
    {p : Param Style} (hp : p ∈ params) :
  ∃ text, writeSlot layout p.slot p.comment apart = some (.ok text)
  := by
  induction params generalizing texts with
  | nil => cases hp
  | cons q params ih =>
    obtain ⟨text, rest, htext, hrest, -⟩ := writeParams_cons_eq_ok h
    rcases List.mem_cons.mp hp with rfl | hp
    · use text
    · apply ih hrest hp

/-- In a node that is written no slot is empty and every child is written.  Of a node of the
Builtin category only the name is written. -/
theorem exists_write_of_write_eq_ok {s : Style} (hcategory : s.category ≠ .builtin) {cs : List Char}
    (h : s.write layout = .ok cs) {p : Param Style} (hp : p ∈ s.params) :
  p.slot ≠ .empty ∧ ∀ c, p.slot = .child c → ∃ cs, c.write layout = .ok cs
  := by
  rw [write_eq, if_neg hcategory] at h
  obtain ⟨texts, htexts, -⟩ := exists_of_map_eq_ok h
  obtain ⟨text, htext⟩ := exists_writeSlot_of_mem htexts hp
  constructor
  · intro hempty
    rw [hempty] at htext
    cases htext
  · intro c hc
    rw [hc] at htext
    obtain ⟨cs, hcs, -⟩ := exists_of_map_eq_ok (Option.some.inj htext)
    use cs

/-! ### Comments that are laid out in the same way -/

/-- The comments of a node are laid out as what `f` makes of them. -/
structure SameLayout (layout : Layout) (f : String → String) (s : Style) : Prop where
  node : layout.nodeComment (f s.comment).toList = layout.nodeComment s.comment.toList
  params : ∀ p ∈ s.params,
    layout.literalComment (f p.comment).toList = layout.literalComment p.comment.toList

/-- Comments do not decide on which lines the parameters stand. -/
theorem isApart_mapComments (f : String → String) (params : List (Param Style)) :
  isApart layout (params.map (Param.mapComments f)) = isApart layout params
  := by
  simp [isApart, Param.mapComments, Param.child?, Function.comp_def, Option.any_map]

/-- Parameters that are written alike one by one are written alike together. -/
theorem writeParams_mapComments {f : String → String} {params : List (Param Style)} {apart : Bool}
    (h : ∀ p ∈ params, writeSlot layout (p.mapComments f).slot (p.mapComments f).comment apart
      = writeSlot layout p.slot p.comment apart) (style : String) :
  writeParams layout (params.map (Param.mapComments f)) style apart
    = writeParams layout params style apart
  := by
  induction params with
  | nil => rfl
  | cons p params ih =>
    obtain ⟨hp, hparams⟩ := List.forall_mem_cons.mp h
    obtain ⟨name, kind, slot, comment⟩ := p
    simp only [List.map_cons, Param.mapComments, writeParams] at hp ⊢
    rw [hp, ih hparams]

/-- A style whose comments are laid out as what `f` makes of them is written as the style
with `f` applied to its comments. -/
theorem write_mapComments {f : String → String} {t : Style}
    (h : t.Everywhere (SameLayout layout f)) :
  (t.mapComments f).write layout = t.write layout
  := by
  induction h with
  | @node t here _ ih =>
    have hslots : ∀ apart, ∀ p ∈ t.params,
        writeSlot layout (p.mapComments f).slot (p.mapComments f).comment apart
          = writeSlot layout p.slot p.comment apart := by
      intro apart p hp
      have hcomment := here.params p hp
      cases hslot : p.slot with
      | number _ | bits _ | bool _ =>
        simp only [Param.mapComments, hslot, Slot.map, writeSlot, hcomment]
      | empty => simp only [Param.mapComments, hslot, Slot.map, writeSlot]
      | child c => simp only [Param.mapComments, hslot, Slot.map, writeSlot, ih p hp c hslot]
    simp only [write_eq, category_mapComments, comment_mapComments, name_mapComments,
      params_mapComments, fixedForm_mapComments, here.node, isApart_mapComments,
      writeParams_mapComments (hslots _)]

/-! ### The characters of a text -/

variable {P : Char → Prop}

/-- A condition that the characters meet which a layout adds to names, values and comments. -/
structure Admissible (layout : Layout) (P : Char → Prop) : Prop where
  mark : ∀ c ∈ ['&', '<', '>', ',', ' ', '(', ')'], P c
  lineBreak : layout = .multiline → P '\n' ∧ P '\t'

/-- A node whose name, values and comments, as they are laid out, meet a condition. -/
structure SpeltIn (layout : Layout) (P : Char → Prop) (s : Style) : Prop where
  name : ∀ c ∈ s.name.toList, P c
  node : ∀ c ∈ layout.nodeComment s.comment.toList, P c
  literal : ∀ p ∈ s.params, p.isLiteral = true → ∀ c ∈ layout.literalComment p.comment.toList, P c
  value : ∀ p ∈ s.params, ∀ c ∈ p.slot.literalText, P c

/-- Only the layout over several lines puts parameters on lines of their own. -/
theorem eq_multiline_of_isApart {params : List (Param Style)}
    (h : isApart layout params = true) :
  layout = .multiline
  := by
  rw [isApart, Bool.and_eq_true] at h
  exact of_decide_eq_true h.1

/-- What is put between parameters meets the condition if the parameters do. -/
theorem forall_mem_arrange (hP : Admissible layout P) {params : List (Param Style)}
    {texts : List (List Char)} (h : ∀ text ∈ texts, ∀ c ∈ text, P c) :
  ∀ c ∈ Layout.arrange (isApart layout params) texts, P c
  := by
  intro c hc
  cases hapart : isApart layout params with
  | true =>
    obtain ⟨hline, htab⟩ := hP.lineBreak (eq_multiline_of_isApart hapart)
    rw [hapart] at hc
    rcases List.mem_append.mp hc with hc | hc
    · rcases Source.mem_of_mem_intercalate hc with hc | ⟨line, hmem, hc⟩
      · exact hP.mark c (by simp_all)
      · obtain ⟨text, htext, rfl⟩ := List.mem_map.mp hmem
        rcases List.mem_cons.mp hc with rfl | hc
        · exact hline
        · rcases List.mem_cons.mp hc with rfl | hc
          · exact htab
          · exact h text htext c hc
    · obtain rfl := List.mem_singleton.mp hc
      exact hline
  | false =>
    rw [hapart] at hc
    rcases Source.mem_of_mem_intercalate hc with hc | ⟨text, htext, hc⟩
    · have hmarks : ∀ d ∈ [',', ' '], d ∈ ['&', '<', '>', ',', ' ', '(', ')'] := by simp
      exact hP.mark c (hmarks c hc)
    · exact h text htext c hc

/-- Indentation brings in tabs only. -/
theorem forall_mem_indented {cs : List Char} (hbreak : P '\n' ∧ P '\t') (h : ∀ c ∈ cs, P c) :
  ∀ c ∈ Layout.indented cs, P c
  := by
  intro c hc
  obtain ⟨d, hd, hc⟩ := List.mem_flatMap.mp hc
  split at hc
  · rcases List.mem_cons.mp hc with rfl | hc
    · exact hbreak.1
    · obtain rfl := List.mem_singleton.mp hc
      exact hbreak.2
  · obtain rfl := List.mem_singleton.mp hc
    exact h c hd

/-- The text of a parameter meets the condition if its comment and its value do, or its
child does. -/
theorem forall_mem_writeSlot (hP : Admissible layout P) {params : List (Param Style)}
    {p : Param Style}
    (hliteral : p.isLiteral = true → ∀ c ∈ layout.literalComment p.comment.toList, P c)
    (hvalue : ∀ c ∈ p.slot.literalText, P c)
    (hchild : ∀ d, p.slot = .child d → ∀ cs, d.write layout = .ok cs → ∀ c ∈ cs, P c)
    {text : List Char}
    (h : writeSlot layout p.slot p.comment (isApart layout params) = some (.ok text)) :
  ∀ c ∈ text, P c
  := by
  have literal (hl : p.isLiteral = true) : ∀ c ∈ text, P c := by
    rw [writeSlot_of_isLiteral hl] at h
    obtain rfl := Except.ok.inj (Option.some.inj h)
    exact List.forall_mem_append.mpr ⟨hliteral hl, hvalue⟩
  rw [Param.isLiteral] at literal
  cases hslot : p.slot with
  | number _ | bits _ | bool _ =>
    rw [hslot] at literal
    apply literal rfl
  | empty =>
    rw [hslot] at h
    cases h
  | child d =>
    rw [hslot] at h
    simp only [writeSlot, Option.some.injEq] at h
    obtain ⟨cs, hwrite, rfl⟩ := exists_of_map_eq_ok h
    have hcs := hchild d hslot cs hwrite
    split
    · next hapart => apply forall_mem_indented (hP.lineBreak (eq_multiline_of_isApart hapart)) hcs
    · apply hcs

/-- If each parameter is written with characters that meet the condition, all of them are. -/
theorem forall_mem_writeParams {params : List (Param Style)} {apart : Bool}
    (h : ∀ p ∈ params, ∀ text, writeSlot layout p.slot p.comment apart = some (.ok text) →
      ∀ c ∈ text, P c) {style : String} {texts : List (List Char)}
    (hwrite : writeParams layout params style apart = .ok texts) :
  ∀ text ∈ texts, ∀ c ∈ text, P c
  := by
  induction params generalizing texts with
  | nil =>
    obtain rfl := Except.ok.inj hwrite
    apply List.forall_mem_nil
  | cons p params ih =>
    obtain ⟨hp, hparams⟩ := List.forall_mem_cons.mp h
    obtain ⟨text, rest, htext, hrest, rfl⟩ := writeParams_cons_eq_ok hwrite
    exact List.forall_mem_cons.mpr ⟨hp text htext, ih hparams hrest⟩

/-- A condition that is met by the names, the values and the comments in a tree and by what the
layout adds to them is met by the text. -/
theorem forall_mem_write (hP : Admissible layout P) {t : Style}
    (h : t.Everywhere (SpeltIn layout P)) {cs : List Char} (hwrite : t.write layout = .ok cs) :
  ∀ c ∈ cs, P c
  := by
  induction h generalizing cs with
  | @node t here _ ih =>
    have hname := here.name
    have hnode := here.node
    rw [write_eq] at hwrite
    split at hwrite
    · obtain rfl := Except.ok.inj hwrite
      rw [List.forall_mem_append, List.forall_mem_cons]
      exact ⟨hnode, hP.mark '&' (by decide), hname⟩
    · obtain ⟨texts, htexts, rfl⟩ := exists_of_map_eq_ok hwrite
      have harrange : ∀ c ∈ Layout.arrange (isApart layout t.params) texts, P c := by
        apply forall_mem_arrange hP
        refine forall_mem_writeParams ?_ htexts
        intro p hp text htext
        refine forall_mem_writeSlot hP (here.literal p hp) (here.value p hp) ?_ htext
        exact fun d hd cs hcs => ih p hp d hd hcs
      have hbracketed : ∀ c ∈ Layout.bracketed t.fixedForm
          (Layout.arrange (isApart layout t.params) texts), P c := by
        rw [Layout.bracketed]
        split
        · exact harrange
        · rw [List.forall_mem_append, List.forall_mem_append, List.forall_mem_singleton,
            List.forall_mem_singleton]
          exact ⟨⟨hP.mark '<' (by decide), harrange⟩, hP.mark '>' (by decide)⟩
      have hending : ∀ c ∈ Layout.ending t.category, P c := by
        rw [Layout.ending]
        split
        · have hmarks : ∀ d ∈ ['(', ')'], d ∈ ['&', '<', '>', ',', ' ', '(', ')'] := by simp
          exact fun c hc => hP.mark c (hmarks c hc)
        · exact List.forall_mem_nil _
      simp only [List.forall_mem_append]
      exact ⟨⟨⟨hnode, hname⟩, hbracketed⟩, hending⟩

/-- A node without comments. -/
structure Uncommented (s : Style) : Prop where
  node : s.comment = ""
  params : ∀ p ∈ s.params, p.comment = ""

theorem uncommented_withoutComments (s : Style) :
  s.withoutComments.Uncommented
  := by
  constructor
  · apply comment_mapComments
  · intro p hp
    rw [withoutComments, params_mapComments] at hp
    obtain ⟨q, -, rfl⟩ := List.mem_map.mp hp
    rfl

/-- A style without its comments has none at any of its nodes. -/
theorem everywhere_uncommented (t : Style) :
  t.withoutComments.Everywhere Uncommented
  := by
  apply Everywhere.mapComments (P := fun _ => True)
  · apply Everywhere.of_forall
    exact fun _ => trivial
  · exact fun s _ => uncommented_withoutComments s

/-- A node without comments whose name has no slash. -/
structure Plain (s : Style) : Prop extends Uncommented s where
  name : '/' ∉ s.name.toList

/-- A node without comments whose name has no slash is spelt without a slash. -/
theorem Plain.speltIn {s : Style} (h : s.Plain) :
  SpeltIn layout (· ≠ '/') s
  where
  name c hc := by
    rintro rfl
    exact h.name hc
  node := by
    rw [h.node]
    exact List.forall_mem_nil _
  literal p hp _ := by
    rw [h.params p hp]
    exact List.forall_mem_nil _
  value p _ c hc := Source.ne_of_isInert (p.slot.isInert_literalText c hc) rfl

/-- Styles without comments are written without a slash, so that their text reads as
plain. -/
theorem slash_not_mem_write {t : Style} (h : t.Everywhere Plain) {cs : List Char}
    (hwrite : t.write layout = .ok cs) :
  '/' ∉ cs
  := by
  have hP : Admissible layout (· ≠ '/') := ⟨by simp, fun _ => by simp⟩
  intro hmem
  exact forall_mem_write hP (h.imp fun _ hs => hs.speltIn) hwrite '/' hmem rfl

end Style

end BladeStyle
