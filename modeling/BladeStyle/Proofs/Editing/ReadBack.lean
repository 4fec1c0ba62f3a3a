import BladeStyle.Proofs.Editing.Effect
import BladeStyle.Proofs.Editing.Sync
import BladeStyle.Proofs.Registry.Form

/-!
# Reading back the text of an engine

The trees that an engine gets from texts and from edits with styles that were read are in the
shape of the registry, but a slot may be empty.  No slot is empty in a tree that can be
written, so its text reads back.  What an editor does not look after is the height of a tree:
a text that has more levels than the parser follows is shown all the same and is then refused.
-/

namespace BladeStyle

namespace Style

variable {r : Registry} {s t : Style}

/-! ### Trees that are edited -/

/-- A proper node with the shape of its template, in which only literals have comments of
their own.  Its slots may be empty. -/
structure EditableNode (r : Registry) (s : Style) : Prop extends ProperNode s where
  shape : ∃ template, r.template? s.name = some template ∧ HasShape template s
  plain : ∀ p ∈ s.params, p.isLiteral = false → p.comment = ""

/-- A tree of editable nodes. -/
def Editable (r : Registry) (s : Style) : Prop := s.Everywhere (EditableNode r)

/-- A style that is read from some text. -/
def Readable (s : Style) : Prop := ∃ text, Style.parse text = .ok s

namespace EditableNode

/-- An editable node stays one with other parameters that look like its own, if these can
be shown. -/
theorem withParams (hr : r.Declared) (h : EditableNode r s) {params : List (Param Style)}
    (hproper : ProperNode { s with params }) (halike : Param.Alike s.declared s.params params)
    (hrepeats : params.length ≤ s.params.length ∨ s.isVariadic = true)
    (hplain : ∀ p ∈ params, p ∈ s.params ∨ (p.isLiteral = false → p.comment = "")) :
  EditableNode r { s with params }
  where
  toProperNode := hproper
  shape := by
    obtain ⟨template, ht, hshape⟩ := h.shape
    obtain ⟨e, he, rfl, -⟩ := Registry.mem_of_template? ht
    use e.template, ht
    apply hshape.withParams (hr e he) hproper.declared_le halike hrepeats
  plain p hp := by
    rcases hplain p hp with hmem | hcomment
    · apply h.plain p hmem
    · exact hcomment

/-- An edit leaves an editable node editable. -/
theorem effect (hr : r.Declared) (h : EditableNode r s) {e : Edit} (heffect : e.Effect s t) :
  EditableNode r t
  := by
  have hproper := heffect.properNode h.toProperNode
  cases heffect with
  | slot hp htype hfits hchild =>
    have hsame := Param.sameSlot_of_category? htype
    apply h.withParams hr hproper (Param.alike_set hp hsame _)
    · left
      rw [List.length_set]
    · intro q hq
      rcases List.mem_or_eq_of_mem_set hq with hmem | rfl
      · exact Or.inl hmem
      · right
        rw [hsame.isLiteral]
        apply h.plain _ (List.mem_of_getElem? hp)
  | insert _ hinsert =>
    obtain ⟨hmin, hmax, p, hp, rfl⟩ := insertRepeat_eq_ok.mp hinsert
    obtain ⟨tail, htail, hvariadic, hanother⟩ := nextRepeat_eq_ok.mp hp
    have hsame := Param.sameSlot_of_another hanother
    apply h.withParams hr hproper (Param.alike_insertIdx hmin h.declared_le htail hsame)
    · right
      rw [isVariadic, htail]
      exact hvariadic
    · intro q hq
      rcases (List.mem_insertIdx hmax).mp hq with rfl | hmem
      · right
        intro _
        apply (Param.store_eq_ok hanother).2
      · exact Or.inl hmem
  | remove hremove =>
    obtain ⟨hp, hvariadic, -, rfl⟩ := removeRepeat_eq_ok.mp hremove
    apply h.withParams hr hproper (Param.alike_eraseIdx (h.declared_le_succ hp hvariadic))
    · left
      apply List.length_eraseIdx_le
    · intro q hq
      exact Or.inl (List.mem_of_mem_eraseIdx hq)
  | comment comment =>
    obtain ⟨template, ht, hshape⟩ := h.shape
    exact ⟨hproper, ⟨template, ht, hshape.withComment comment⟩, h.plain⟩

end EditableNode

/-- A mutation that carries an editable style, if any, leaves an editable tree editable. -/
theorem Editable.apply (hr : r.Declared) {m : Mutation} (h : s.Editable r)
    (hm : m.edit.Carries (Editable r)) (ht : m.apply s = .ok t) :
  t.Editable r
  := Mutation.everywhere_apply EditableNode.toProperNode (fun hs => hs.effect hr) h hm ht

/-- What is read from a text is editable. -/
theorem Readable.editable (h : s.Readable) :
  s.Editable Registry.builtin
  := by
  obtain ⟨text, htext⟩ := h
  apply (wellFormed_of_parse htext).imp
  intro n hn
  use hn.properNode Registry.tailed_builtin, hn.shape
  exact fun p hp => (hn.params p hp).comment

/-- An editable tree that can be written is well formed. -/
theorem Editable.wellFormed_of_write (hr : r.Regular) (h : s.Editable r) {layout : Layout}
    {cs : List Char} (hwrite : s.write layout = .ok cs) :
  s.WellFormed r
  := by
  induction h generalizing cs with
  | @node s here _ ih =>
    have hwritten : ∀ p ∈ s.params,
        p.slot ≠ .empty ∧ ∀ c, p.slot = .child c → ∃ cs, c.write layout = .ok cs := by
      intro p hp
      apply exists_write_of_write_eq_ok _ hwrite hp
      -- writing skips the parameters of a builtin, but its template does not have any
      intro hbuiltin
      obtain ⟨template, ht, hshape⟩ := here.shape
      obtain ⟨e, he, rfl, -⟩ := Registry.mem_of_template? ht
      rw [hshape.params_eq_nil (hr e he) (Or.inr hbuiltin)] at hp
      cases hp
    apply Everywhere.node
    · use here.shape
      intro p hp
      exact ⟨(here.fits p hp).sound (hwritten p hp).1, here.plain p hp⟩
    · intro p hp c hc
      obtain ⟨cs, hcs⟩ := (hwritten p hp).2 c hc
      apply ih p hp c hc hcs

/-- The text of an editable tree reads back with normalised comments, unless the tree has too many
levels. -/
theorem Editable.parse_text (hs : s.Editable Registry.builtin) {text : String}
    (h : s.text .multiline = .ok text) :
  Style.parse text = if s.height ≤ levelLimit then .ok (s.mapComments Layout.multiline.kept)
    else .error (.tooDeep levelLimit)
  := by
  obtain ⟨cs, hcs, -⟩ := exists_of_map_eq_ok h
  obtain ⟨text', htext', hparse⟩ := Registry.exists_text Registry.regular_builtin
    (hs.wellFormed_of_write Registry.regular_builtin hcs) .multiline
  obtain rfl := Except.ok.inj (h.symm.trans htext')
  exact hparse

end Style

/-! ### The text that is shown -/

/-- An edit that carries styles with a property carries styles with a weaker one. -/
theorem Edit.Carries.imp {P Q : Style → Prop} (h : ∀ s, P s → Q s) {e : Edit} (he : e.Carries P) :
  e.Carries Q
  := by
  cases e with
  | setStyle i s => apply h s he
  | addParam i value =>
    cases value with
    | int n => trivial
    | style s => apply h s he
  | setNumber | setBits | setBool | detachStyle | removeParam | setComment => trivial

namespace Engine

variable {e : Engine}

/-- Every call leaves an editable tree editable if it carries a style that was read. -/
theorem editable_answer {call : Call} (hcall : call.Carries Style.Readable)
    (he : e.root.Editable Registry.builtin) :
  (e.answer call).2.root.Editable Registry.builtin
  := by
  cases call with
  | apply m =>
    rw [answer, afterChange_snd]
    apply holds_mutate (P := fun e => e.root.Editable Registry.builtin) he
    intro tree htree
    apply he.apply Registry.declared_builtin (hcall.imp fun _ => Style.Readable.editable) htree
  | enterText text =>
    rw [answer, afterChange_snd]
    apply holds_setText (P := fun e => e.root.Editable Registry.builtin) he
    intro root hroot
    exact Style.Readable.editable ⟨text, hroot⟩
  | replaceRoot root => exact Style.Readable.editable hcall
  | flush | readText =>
    rw [answer, root_flush]
    exact he

/-- An engine for a text that is parsed has the tree of the text. -/
theorem exists_ofText?_of_parse {text : String} {root : Style} (h : Style.parse text = .ok root) :
  ∃ e, ofText? text = .ok e ∧ e.root = root
  := by
  obtain ⟨written, hwritten, -⟩ := Registry.exists_text Registry.regular_builtin
    (Style.wellFormed_of_parse h) .multiline
  exact ⟨_, ofText?_eq_ok.mpr ⟨root, written, h, hwritten, rfl⟩, rfl⟩

/-- A text of an editable tree is parsed to the tree up to comments, unless the tree has too
many levels. -/
theorem Describes.parse {root : Style} {text : String} (h : Describes root (some text))
    (hroot : root.Editable Registry.builtin) :
  (root.height ≤ levelLimit →
      ∃ t, Style.parse text = .ok t ∧ t.withoutComments = root.withoutComments)
    ∧ (levelLimit < root.height → Style.parse text = .error (.tooDeep levelLimit))
  := by
  rcases h with hwritten | hparsed
  · rw [hroot.parse_text hwritten]
    constructor
    · intro hle
      use root.mapComments Layout.multiline.kept, if_pos hle
      apply Style.mapComments_mapComments
    · intro hlt
      apply if_neg (Nat.not_le.mpr hlt)
  · -- a text that was typed has been parsed already, so its tree is not too high
    have hle := (Registry.finished_of_parse hparsed).2
    constructor
    · intro _
      use root
    · intro hlt
      omega

/-- The text that is shown after any calls can be read back.  If the tree has at most 64
levels below its root, the engine for that text has the same tree up to comments; if it has
more, the text is refused as too deep. -/
theorem shown_text_reads_back {text shown : String} {start : Engine} {calls : List Call}
    (hstart : ofText? text = .ok start) (hcalls : ∀ call ∈ calls, call.Carries Style.Readable)
    (hshown : (start.after calls).text? = some shown) :
  ((start.after calls).root.height ≤ 64 → ∃ e, ofText? shown = .ok e
      ∧ e.root.withoutComments = (start.after calls).root.withoutComments)
    ∧ (64 < (start.after calls).root.height → ofText? shown = .error (.parse (.tooDeep 64)))
  := by
  have heditable : (start.after calls).root.Editable Registry.builtin := by
    apply after_of_answer (P := fun e => e.root.Editable Registry.builtin)
      (fun e call he hcall => editable_answer hcall he) hcalls
    obtain ⟨root, written, hroot, -, rfl⟩ := ofText?_eq_ok.mp hstart
    exact Style.Readable.editable ⟨text, hroot⟩
  have hdescribes : Describes (start.after calls).root (some shown) := by
    rw [← hshown]
    apply (Reached.inSync ⟨start, calls, Or.inl ⟨text, hstart⟩, rfl⟩).describes_text?
  obtain ⟨hlow, hhigh⟩ := hdescribes.parse heditable
  constructor
  · intro hle
    obtain ⟨t, ht, hsame⟩ := hlow hle
    obtain ⟨e, he, rfl⟩ := exists_ofText?_of_parse ht
    use e
  · intro hlt
    rw [ofText?, hhigh hlt]
    rfl

/-- A colour added to a gradient, and a comment on it that has to be broken up. -/
def addBlue : List Call :=
  [ .apply ⟨[], .addParam 1 (.style (Builtin.bare "Blue" .color))⟩,
    .apply ⟨[1], .setComment "*/ cold"⟩ ]

theorem shown_text_reads_back_gradient :
  ∃ start e : Engine, ofText? "Gradient<Red>" = .ok start
    ∧ (start.after addBlue).text? = some "Gradient<Red, /*\n* / cold\n*/\nBlue>"
    ∧ ofText? "Gradient<Red, /*\n* / cold\n*/\nBlue>" = .ok e
    ∧ e.root.withoutComments = (start.after addBlue).root.withoutComments
  := by
  obtain ⟨hblue, hrun⟩ : Style.parse "Blue" = .ok (Builtin.bare "Blue" .color)
      ∧ (ofText? "Gradient<Red>").toOption.map (fun start =>
          ((start.after addBlue).text?, decide ((start.after addBlue).root.height ≤ 64)))
        = some (some "Gradient<Red, /*\n* / cold\n*/\nBlue>", true) := by
    decide +kernel
  have hcalls : ∀ call ∈ addBlue, call.Carries Style.Readable := by
    have hreadable : (Builtin.bare "Blue" .color).Readable := ⟨"Blue", hblue⟩
    simp [addBlue, Call.Carries, Edit.Carries, hreadable]
  obtain ⟨start, hstart, hanswers⟩ := exists_of_map_toOption_eq_some hrun
  obtain ⟨hshown, hheight⟩ := Prod.mk.inj hanswers
  obtain ⟨e, he, hsame⟩ :=
    (shown_text_reads_back hstart hcalls hshown).1 (of_decide_eq_true hheight)
  exact ⟨start, e, hstart, hshown, he, hsame⟩

/-! ### A tree that is too high -/

/-- A concatenation with at most one step. -/
def concatenation (step : Option Style) : Style :=
  .ofParams "TrConcat" "Concatenate" .transition
    [(Builtin.takes "Step" [.transition, .color] step).asVariadic]

/-- Transitions one inside the other, `n` levels of them above the innermost one. -/
def nestedTransitions : Nat → Style
  | 0 => Builtin.bare "TrInstant" .transition
  | n + 1 => concatenation (some (nestedTransitions n))

/-- The text of such transitions on one line. -/
def nestedText : Nat → String
  | 0 => "TrInstant"
  | n + 1 => "TrConcat<" ++ nestedText n ++ ">"

theorem category_nestedTransitions (n : Nat) :
  (nestedTransitions n).category = .transition
  := by
  cases n <;> rfl

theorem height_nestedTransitions (n : Nat) :
  (nestedTransitions n).height = n
  := by
  induction n with
  | zero => rfl
  | succ n ih =>
    change max ((nestedTransitions n).height + 1) 0 = n + 1
    rw [ih, Nat.max_zero]

theorem mapComments_nestedTransitions {f : String → String} (hf : f "" = "") (n : Nat) :
  (nestedTransitions n).mapComments f = nestedTransitions n
  := by
  apply Style.mapComments_eq_self
  induction n with
  | zero =>
    apply Style.Everywhere.node ⟨hf, List.forall_mem_nil _⟩
    exact List.forall_mem_nil _
  | succ n ih =>
    apply Style.Everywhere.node
    · use hf
      intro p hp
      obtain rfl := List.mem_singleton.mp hp
      exact hf
    · intro p hp c hc
      obtain rfl := List.mem_singleton.mp hp
      obtain rfl := Slot.child.inj hc
      exact ih

/-- Transitions one in the other are written one in the other. -/
theorem text_nestedTransitions (n : Nat) :
  (nestedTransitions n).text .compact = .ok (nestedText n)
  := by
  induction n with
  | zero => decide +kernel
  | succ n ih =>
    obtain ⟨cs, hcs, htext⟩ := exists_of_map_eq_ok ih
    have hslot : Style.writeSlot .compact (.child (nestedTransitions n)) "" false
        = some (.ok cs) := by
      rw [Style.writeSlot, hcs]
      rfl
    have hparams : Style.writeParams .compact (nestedTransitions (n + 1)).params "TrConcat" false
        = .ok [cs] := by
      rw [nestedTransitions, concatenation, Style.ofParams, Style.writeParams_cons hslot,
        Style.writeParams]
      rfl
    rw [Style.text, Style.write_eq, category_nestedTransitions, if_neg (by decide)]
    change Except.map _ (Except.map _ (Style.writeParams .compact _ "TrConcat" false)) = _
    rw [hparams, nestedText, ← htext]
    apply congrArg Except.ok
    apply String.toList_injective
    simp [Layout.nodeComment, Layout.bracketed, Layout.arrange, Layout.ending, nestedTransitions,
      concatenation, Style.ofParams, Style.isApart]

theorem accepts_nestedTransitions (n : Nat) :
  ((CategorySet.ofList [.transition, .color]).inter CategorySet.nodes).accepts
    (nestedTransitions n).category = true
  := by
  rw [category_nestedTransitions]
  decide +kernel

/-- Transitions one in the other are well formed, however many there are. -/
theorem wellFormed_nestedTransitions (n : Nat) :
  (nestedTransitions n).WellFormed Registry.builtin
  := by
  have htemplates : Registry.builtin.template? "TrInstant" = some (nestedTransitions 0)
      ∧ Registry.builtin.template? "TrConcat" = some (concatenation none) := by
    decide +kernel
  induction n with
  | zero =>
    apply Style.Everywhere.node
    · constructor
      · use nestedTransitions 0, htemplates.1
        exact ⟨rfl, rfl, rfl, rfl, rfl, Or.inl (Nat.le_refl 0), .nil⟩
      · exact List.forall_mem_nil _
    · exact List.forall_mem_nil _
  | succ n ih =>
    apply Style.Everywhere.node
    · constructor
      · use concatenation none, htemplates.2
        exact ⟨rfl, rfl, rfl, rfl, rfl, Or.inl (Nat.le_refl 1), .cons ⟨rfl, rfl, rfl⟩ .nil⟩
      · intro p hp
        obtain rfl := List.mem_singleton.mp hp
        exact ⟨accepts_nestedTransitions n, fun _ => rfl⟩
    · intro p hp c hc
      obtain rfl := List.mem_singleton.mp hp
      obtain rfl := Slot.child.inj hc
      exact ih

/-- Up to the limit the text of transitions one in the other is read back. -/
theorem parse_nestedText {n : Nat} (hn : n ≤ 64) :
  Style.parse (nestedText n) = .ok (nestedTransitions n)
  := by
  obtain ⟨text, htext, hparse⟩ := Registry.exists_text Registry.regular_builtin
    (wellFormed_nestedTransitions n) .compact
  obtain rfl := Except.ok.inj (htext.symm.trans (text_nestedTransitions n))
  rw [height_nestedTransitions, levelLimit, if_pos hn, mapComments_nestedTransitions rfl] at hparse
  exact hparse

/-- Any number of transitions can be put below the outermost one, so that the editor reaches
every depth. -/
theorem apply_nestedTransitions (m n : Nat) :
  Mutation.apply ⟨[], .setStyle 0 (nestedTransitions n)⟩ (nestedTransitions (m + 1))
    = .ok (nestedTransitions (n + 1))
  := by
  apply Mutation.apply_eq_ok.mpr
  refine ⟨_, nestedTransitions (n + 1), rfl, ?_, rfl⟩
  rw [Edit.apply, Style.updateParam_eq_ok]
  exact ⟨_, _, rfl, Param.fill_of_accepts rfl (accepts_nestedTransitions n), rfl⟩

/-- Setting 64 levels of transitions below another one is accepted, and the text is shown,
but it has one level more than the parser follows. -/
theorem deep_text_is_refused :
  ∃ start shown, ofText? "TrConcat<TrInstant>" = .ok start
    ∧ Style.parse (nestedText 64) = .ok (nestedTransitions 64)
    ∧ (start.answer (.apply ⟨[], .setStyle 0 (nestedTransitions 64)⟩)).1 = .done
    ∧ (start.after [.apply ⟨[], .setStyle 0 (nestedTransitions 64)⟩]).text? = some shown
    ∧ ofText? shown = .error (.parse (.tooDeep 64))
  := by
  have hstart : Style.parse "TrConcat<TrInstant>" = .ok (nestedTransitions 1) :=
    parse_nestedText (n := 1) (by decide)
  obtain ⟨start, hstart, hroot⟩ := exists_ofText?_of_parse hstart
  obtain ⟨shown, hshown, hparse⟩ := Registry.exists_text Registry.regular_builtin
    (wellFormed_nestedTransitions 65) .multiline
  have hanswer : start.answer (.apply ⟨[], .setStyle 0 (nestedTransitions 64)⟩)
      = (.done, start.withRoot (nestedTransitions 65)) := by
    rw [answer, mutate_eq, hroot, apply_nestedTransitions]
    rfl
  rw [height_nestedTransitions] at hparse
  refine ⟨start, shown, hstart, parse_nestedText (Nat.le_refl 64), ?_, ?_, ?_⟩
  · rw [hanswer]
  · rw [after, after, hanswer, text?, flush, withRoot, if_pos rfl, hshown]
    rfl
  · rw [ofText?, Style.parse, hparse]
    rfl

end Engine

end BladeStyle
