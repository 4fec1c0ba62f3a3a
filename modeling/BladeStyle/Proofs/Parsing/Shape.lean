import BladeStyle.Proofs.Parsing.Rewriting
import BladeStyle.Proofs.Registry.Shape

/-!
# The shape of parsed styles

What is parsed is well formed for the registry, lower than the number of levels that were
allowed, and all its comments are tidy.
-/

namespace BladeStyle

theorem Comment.isTidy_joinedText (cs : List Comment) :
  Text.IsTidy (joinedText cs)
  := by
  apply Text.isTidy_unlines
  intro l hl
  obtain ⟨hmem, hne⟩ := List.mem_filter.mp hl
  obtain ⟨c, -, rfl⟩ := List.mem_map.mp hmem
  exact ⟨Text.isTidy_tidy c.body, by simpa using hne⟩

theorem Text.isTidy_nil :
  IsTidy []
  := Comment.isTidy_joinedText []

theorem Style.tidy_withoutComments (s : Style) :
  s.withoutComments.Tidy
  := by
  apply Everywhere.mapComments (P := fun _ => True)
  · apply Everywhere.of_forall
    exact fun _ => trivial
  · intro s _
    constructor
    · rw [comment_mapComments]
      apply Text.isTidy_nil
    · intro p hp
      rw [params_mapComments] at hp
      obtain ⟨q, -, rfl⟩ := List.mem_map.mp hp
      apply Text.isTidy_nil

namespace Param

variable {parseChild : Source → Except ParseError Style} {parent : String} {index : Nat}

/-- What is read into a slot without a comment. -/
structure ReadBy (parseChild : Source → Except ParseError Style) (p : Param Style) : Prop where
  sound : p.Sound
  tidy : Text.IsTidy p.comment.toList
  child : ∀ c, p.slot = .child c → ∃ argument, parseChild argument = .ok c

theorem argumentValue_eq_style {literal : Bool} {argument : Source} {c : Style}
    (h : Registry.argumentValue parseChild parent index literal argument = .ok (.style c)) :
  parseChild argument = .ok c
  := by
  simp only [Registry.argumentValue] at h
  split at h
  · cases h
  · split at h
    · next hc =>
      obtain rfl := Value.style.inj (Except.ok.inj h)
      exact hc
    · cases h

/-- What is read leaves its slot finished, and a child in it was parsed. -/
theorem sound_of_read {slot p : Param Style} {argument : Source}
    (h : read parseChild parent index slot argument = .ok p) :
  p.slot.Sound p.kind ∧ ∀ c, p.slot = .child c → parseChild argument = .ok c
  := by
  obtain ⟨value, q, hvalue, hq, heq⟩ := exists_of_read_eq_ok h
  have hslot : p.slot = q.slot := by rw [heq]
  have hkind : p.kind = q.kind := by rw [heq]
  rw [hslot, hkind]
  use sound_of_store hq
  intro c hc
  obtain rfl := child_of_store hq hc
  apply argumentValue_eq_style hvalue

theorem readBy_of_read {slot p : Param Style} {argument : Source} (hslot : slot.comment = "")
    (h : read parseChild parent index slot argument = .ok p) :
  ReadBy parseChild p
  := by
  have hliteral := (sameSlot_read h).isLiteral
  obtain ⟨hsound, hchild⟩ := sound_of_read h
  have hcomment : p.comment
      = if slot.isLiteral then String.ofList argument.leadingText else "" := by
    rw [read_eq _ _ _ hslot] at h
    split at h
    · cases h
    · split at h
      · cases h
      · obtain rfl := Except.ok.inj h
        rfl
  constructor
  · use hsound
    intro hl
    rw [hcomment, if_neg]
    rw [← hliteral, hl]
    exact Bool.false_ne_true
  · rw [hcomment]
    split
    · rw [String.toList_ofList]
      apply Comment.isTidy_joinedText
    · apply Text.isTidy_nil
  · intro c hc
    use argument, hchild c hc

end Param

namespace Registry

variable {r : Registry}

/-- What is known of a parsed style. -/
structure Parsed (r : Registry) (levels : Nat) (t : Style) : Prop where
  wellFormed : t.WellFormed r
  tidy : t.Tidy
  height_lt : t.height < levels

theorem Parsed.withoutComments {levels : Nat} {t : Style} (h : Parsed r levels t) :
  Parsed r levels t.withoutComments
  where
  wellFormed := h.wellFormed.withoutComments
  tidy := t.tidy_withoutComments
  height_lt := by
    rw [Style.withoutComments, Style.height_mapComments]
    exact h.height_lt

/-- An expression is parsed to a node that has the shape of a template, the comment of the
expression and parameters that were read into the slots of the template. -/
theorem exists_template_of_parseNode {parseChild : Source → Except ParseError Style}
    {e : Expression} {t : Style} (h : r.parseNode parseChild e = .ok t) :
  ∃ template, r.template? t.name = some template ∧ Style.HasShape template t
    ∧ t.comment = String.ofList e.comment
    ∧ ∀ p ∈ t.params, ∃ i, ∃ slot ∈ template.slots t.params.length, ∃ argument,
      Param.read parseChild e.name i slot argument = .ok p
  := by
  obtain ⟨template, ps, ht, hmax, hlength, hps, rfl⟩ := exists_readEach_of_parseNode h
  obtain ⟨entry, -, -, hname⟩ := mem_of_template? ht
  have hsame := Param.sameSlot_readEach hps hlength
  have hparams : ps.length = e.arguments.length := hsame.length_eq.trans hlength.symm
  rw [← hparams] at hmax hsame hps
  refine ⟨template, ?_, ⟨rfl, rfl, rfl, rfl, rfl, hmax, hsame⟩, rfl, ?_⟩
  · rw [hname]
    exact ht
  · intro p hp
    apply Param.exists_of_mem_readEach hps hp

/-- The same for a registry without comments. -/
theorem parseNode_eq_ok (hr : r.Uncommented) {parseChild : Source → Except ParseError Style}
    {e : Expression} {t : Style} (h : r.parseNode parseChild e = .ok t) :
  (∃ template, r.template? t.name = some template ∧ Style.HasShape template t)
    ∧ (∀ p ∈ t.params, Param.ReadBy parseChild p) ∧ t.comment = String.ofList e.comment
  := by
  obtain ⟨template, ht, hshape, hcomment, hread⟩ := exists_template_of_parseNode h
  refine ⟨⟨template, ht, hshape⟩, ?_, hcomment⟩
  intro p hp
  obtain ⟨i, slot, hslot, argument, hp⟩ := hread p hp
  apply Param.readBy_of_read (hr.slots ht _ slot hslot) hp

/-- A node is one level higher than its children. -/
theorem parsed_of_parseNode (hr : r.Uncommented) {levels : Nat}
    {parseChild : Source → Except ParseError Style}
    (hparse : ∀ argument c, parseChild argument = .ok c → Parsed r levels c)
    {e : Expression} {t : Style} (h : r.parseNode parseChild e = .ok t) :
  Parsed r (levels + 1) t
  := by
  obtain ⟨hshape, hread, hcomment⟩ := parseNode_eq_ok hr h
  have hchild : ∀ p ∈ t.params, ∀ c, p.slot = .child c → Parsed r levels c := by
    intro p hp c hc
    obtain ⟨argument, hargument⟩ := (hread p hp).child c hc
    apply hparse argument c hargument
  constructor
  · apply Style.Everywhere.node _ fun p hp c hc => (hchild p hp c hc).wellFormed
    use hshape
    intro p hp
    apply (hread p hp).sound
  · apply Style.Everywhere.node _ fun p hp c hc => (hchild p hp c hc).tidy
    constructor
    · rw [hcomment, String.toList_ofList]
      apply Comment.isTidy_joinedText
    · intro p hp
      apply (hread p hp).tidy
  · apply Style.height_lt_succ_iff.mpr
    intro p hp c hc
    apply (hchild p hp c hc).height_lt

/-- The same for a whole source, by induction on the number of levels that are allowed. -/
theorem parsed_of_parseWithin (hr : r.Uncommented) {levels : Nat} {s : Source} {t : Style}
    (h : r.parseWithin levels s = .ok t) :
  Parsed r levels t
  := by
  induction levels generalizing s t with
  | zero => cases h
  | succ levels ih =>
    rw [parseWithin] at h
    split at h
    · cases h
    · apply parsed_of_parseNode hr (fun argument c hargument => ih hargument) h

theorem parsed_of_parse (hr : r.Uncommented) {text : String} {t : Style}
    (h : r.parse text = .ok t) :
  Parsed r (levelLimit + 1) t
  := by
  rw [parse] at h
  split at h
  · cases h
  · apply parsed_of_parseWithin hr h

end Registry

end BladeStyle
