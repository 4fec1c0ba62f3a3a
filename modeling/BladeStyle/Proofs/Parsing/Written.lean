import BladeStyle.Proofs.Parsing.Shape
import BladeStyle.Proofs.Source.Layout
import BladeStyle.Proofs.Style.Write

/-!
# Reading written parameters

A source reads back as a tree if it is parsed to the tree with what is kept of its
comments, provided the levels suffice, and if it can stand as an argument.  A source reads
back as a parameter if this holds in any slot of the same type.
-/

namespace BladeStyle

/-- A source that can stand as an argument. -/
structure Source.IsArgument (s : Source) : Prop extends s.IsPart where
  literal : s.literal ≠ []

theorem Source.leadingText_of_not_mem {s : Source} (h : .char '<' ∉ s) :
  leadingText s = Comment.joinedText s.comments
  := by
  rw [leadingText, List.takeWhile_eq_self_iff.mpr]
  intro p hp
  rw [decide_eq_true_eq]
  rintro rfl
  exact h hp

/-! ### Literals -/

namespace Param

variable {p slot : Param Style}

/-- The written value of a literal is stored as the value that it was. -/
theorem store_literalText (hsame : SameSlot p slot) (hsound : p.slot.Sound p.kind)
    (hliteral : p.isLiteral = true) :
  slot.store (.int (Literal.read p.slot.literalText)) = .ok { p with comment := slot.comment }
  := by
  obtain ⟨name, kind, value, comment⟩ := p
  obtain ⟨name', kind', value', comment'⟩ := slot
  obtain ⟨rfl, rfl, hcategory⟩ := hsame
  cases value with
  | empty | child _ => cases hliteral
  | number n =>
    cases value' with
    | number m =>
      obtain ⟨hmin, hmax⟩ := hsound
      have hread : Literal.read (Literal.writeNumber n) = n := by
        simp only [leastNumber, greatestNumber] at hmin hmax
        apply Literal.read_writeNumber <;> omega
      simp only [Slot.literalText, hread, store, storeNumber]
      rw [nearestNumber_of_mem hmin hmax]
    | bits _ | bool _ | empty | child _ => cases hcategory
  | bits b =>
    cases value' with
    | bits m => simp [Slot.literalText, Literal.read_writeBits, store, storeBits, lowBits]
    | number _ | bool _ | empty | child _ => cases hcategory
  | bool b =>
    cases value' with
    | bool m =>
      cases b <;> simp [Slot.literalText, Literal.read_writeBool, store, storeBool]
    | number _ | bits _ | empty | child _ => cases hcategory

end Param

/-! ### Sources that read back -/

namespace Registry

variable {r : Registry} {layout : Layout}

/-- The source of a literal after its comment. -/
def literalSource (layout : Layout) (p : Param Style) : Source :=
  Source.literalComment layout p.comment ++ Source.plain p.slot.literalText

/-- A source that reads back as a tree, if the levels suffice. -/
structure Reads (r : Registry) (layout : Layout) (t : Style) (s : Source) : Prop
    extends s.IsArgument where
  parse : ∀ levels, r.parseWithin levels s
    = if t.height < levels then .ok (t.mapComments layout.kept)
      else .error (.tooDeep levelLimit)

/-- A source that reads back as a parameter in any slot of its type, if the levels
suffice. -/
structure ReadsParam (r : Registry) (layout : Layout) (p : Param Style) (s : Source) : Prop
    extends s.IsArgument where
  read : ∀ levels parent index slot x, Param.SameSlot p slot → slot.comment = "" →
    s.Padded x → Param.read (r.parseWithin levels) parent index slot x
      = if Style.slotHeight p.slot < levels + 1 then .ok (p.mapComments layout.kept)
        else .error (.tooDeep levelLimit)

theorem Reads.indented (hr : r.Uncommented) {t : Style} {s : Source} (h : Reads r layout t s) :
  Reads r layout t (s.flatMap Piece.indented)
  where
  stable p hp := by
    obtain ⟨q, hq, hp⟩ := List.mem_flatMap.mp hp
    apply Piece.isStable_indented (h.stable q hq) p hp
  balanced := h.balanced.flatMap Piece.neutral_indented
  literal := by
    rw [Source.literal_flatMap Piece.neutral_indented]
    exact h.literal
  parse levels := by
    have hid : ∀ t : Style, t.mapComments id = t := by
      intro t
      apply Style.mapComments_eq_self
      apply Style.Everywhere.of_forall
      exact fun s => ⟨rfl, fun p _ => rfl⟩
    have hmap : Style.mapComments id = id := funext hid
    rw [parseWithin_flatMap hr Piece.recommenting_indented, h.parse, hmap]
    split <;> rfl

theorem literal_literalSource (p : Param Style) :
  (literalSource layout p).literal = p.slot.literalText
  := by
  rw [literalSource, Source.literal_append,
    Source.literal_of_blank (Source.blank_literalComment _ _),
    Source.literal_plain_of_isInert p.slot.isInert_literalText, List.nil_append]

theorem leadingText_literalSource {p : Param Style} {x : Source}
    (h : (literalSource layout p).Padded x) :
  String.ofList x.leadingText = layout.kept p.comment
  := by
  obtain ⟨before, after, hb, ha, rfl⟩ := h
  have hblank : ∀ w : Source, w.Blank → .char '<' ∉ w := fun w hw hmem => by
    have hopen := hw _ hmem
    cases hopen
  have hplain : .char '<' ∉ Source.plain p.slot.literalText := by
    intro hmem
    obtain ⟨c, hc, e⟩ := Source.mem_plain.mp hmem
    exact Source.ne_of_isInert (p.slot.isInert_literalText c hc) rfl (Piece.char.inj e)
  rw [Source.leadingText_of_not_mem, literalSource]
  · simp only [Source.comments_append, Source.comments_plain, hb.comments, ha.comments,
      List.nil_append, List.append_nil]
    apply Source.joinedText_literalComment
  · have hcomment := Source.blank_literalComment layout p.comment
    simp [literalSource, hblank before hb.blank, hblank after ha.blank, hblank _ hcomment, hplain]

/-- A literal after its comment. -/
theorem readsParam_literal {p : Param Style} (hsound : p.slot.Sound p.kind)
    (hliteral : p.isLiteral = true) :
  ReadsParam r layout p (literalSource layout p)
  where
  toIsPart := by
    apply Source.IsPart.append
    · apply Source.isPart_literalComment
    · apply Source.IsPart.of_isInert p.slot.isInert_literalText
  literal := by
    rw [literal_literalSource]
    apply Slot.literalText_ne_nil hliteral
  read levels parent index slot x hsame hcomment hx := by
    have hl : slot.isLiteral = true := hsame.isLiteral ▸ hliteral
    have hvalue : x.literal = p.slot.literalText := by rw [hx.literal, literal_literalSource]
    have hmap : p.slot.map (Style.mapComments layout.kept) = p.slot
        ∧ Style.slotHeight p.slot < levels + 1 := by
      rw [Param.isLiteral] at hliteral
      cases hslot : p.slot with
      | number _ | bits _ | bool _ => simp [Slot.map, Style.slotHeight]
      | empty | child _ =>
        rw [hslot] at hliteral
        cases hliteral
    rw [Param.read_eq _ _ _ hcomment, if_pos hmap.2, Param.mapComments, hmap.1]
    simp only [argumentValue, hl, if_true, hvalue, leadingText_literalSource hx,
      Param.store_literalText hsame hsound hliteral]

/-- A child that is accepted. -/
theorem readsParam_child {p : Param Style} {c : Style} (hp : p.slot = .child c) (hsound : p.Sound)
    {s : Source} (h : Reads r layout c s) :
  ReadsParam r layout p s
  where
  toIsArgument := h.toIsArgument
  read levels parent index slot x hsame hcomment hx := by
    have hl : slot.isLiteral = false := by
      rw [← hsame.isLiteral, Param.isLiteral, hp]
      rfl
    rw [Param.read_eq _ _ _ hcomment, hp, Style.slotHeight]
    simp only [argumentValue, hl, Bool.false_eq_true, if_false, parseWithin_padded hx, h.parse,
      Nat.add_lt_add_iff_right]
    by_cases hheight : c.height < levels
    · have haccepts : slot.kind.categories.accepts (c.mapComments layout.kept).category = true := by
        have hslot := hsound.slot
        rw [hp, hsame.kind] at hslot
        rw [Style.category_mapComments]
        apply hslot
      have hnone := hsound.comment (hsame.isLiteral.trans hl)
      simp only [if_pos hheight, Param.store, Param.fill_of_accepts hl haccepts]
      simp [Param.mapComments, hp, Slot.map, hnone, hsame.name, hsame.kind]
    · simp only [if_neg hheight]
      rfl

/-! ### All parameters -/

theorem readEach_of_readsParam {params slots : List (Param Style)} {cores xs : List Source}
    (h : List.Forall₂ (ReadsParam r layout) params cores)
    (hxs : List.Forall₂ Source.Padded cores xs)
    (hsame : List.Forall₂ Param.SameSlot params slots) (hslots : ∀ p ∈ slots, p.comment = "")
    (levels : Nat) (parent : String) (index : Nat) :
  Param.readEach (r.parseWithin levels) parent index slots xs
    = if Style.paramsHeight params < levels + 1
      then .ok (params.map (Param.mapComments layout.kept))
      else .error (.tooDeep levelLimit)
  := by
  induction h generalizing slots xs index with
  | nil =>
    obtain rfl := List.forall₂_nil_left_iff.mp hsame
    simp [Param.readEach, Style.paramsHeight]
  | @cons p core params cores hp _ ih =>
    obtain ⟨slot, slots, hslot, hsame', rfl⟩ := List.forall₂_cons_left_iff.mp hsame
    obtain ⟨x, xs, hx, hxs', rfl⟩ := List.forall₂_cons_left_iff.mp hxs
    obtain ⟨hcomment, hslots'⟩ := List.forall_mem_cons.mp hslots
    rw [Param.readEach, hp.read levels parent index slot x hslot hcomment hx,
      ih hxs' hsame' hslots' (index + 1)]
    simp only [Style.paramsHeight_cons, Nat.max_lt]
    by_cases hhead : Style.slotHeight p.slot < levels + 1
    · by_cases htail : Style.paramsHeight params < levels + 1 <;> simp [hhead, htail, Except.map]
    · simp [hhead]

end Registry

end BladeStyle
