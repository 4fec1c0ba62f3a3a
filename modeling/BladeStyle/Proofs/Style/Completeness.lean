import BladeStyle.Editing.Engine
import BladeStyle.Proofs.Style.Breaches
import BladeStyle.Proofs.Style.Write

/-!
# Complete trees

A tree is complete if none of its slots is empty.  Writing it, checking it node by node, looking
for findings and asking the editor engine are different walks over the tree, which agree on this
as long as nothing stands below a node of which only the name is written.

An empty slot has the path that a child in it would have.  Paths of slots are in lexicographic
order, and the first empty slot is the one that keeps a tree from being written.  It need not be
the one that is found first: findings come node by node, so an empty slot of a node is found
before those below its earlier parameters.
-/

namespace BladeStyle

namespace Style

variable {s : Style}

/-! ### Empty slots -/

/-- The tree has an empty slot at a path, of the node and the parameter that `e` names. -/
def EmptyAt (root : Style) (slot : Path) (e : EmptySlot) : Prop :=
  ∃ (path : Path) (index : Nat) (n : Style) (p : Param Style),
    slot = path.child index ∧ root.at? path = some n ∧ n.params[index]? = some p
      ∧ p.slot = .empty ∧ e = ⟨n.name, p.name⟩

/-- The empty slot of a tree whose path comes before that of every other one. -/
structure FirstEmpty (root : Style) (slot : Path) (e : EmptySlot) : Prop where
  emptyAt : root.EmptyAt slot e
  least : ∀ slot' e', root.EmptyAt slot' e' → slot = slot' ∨ slot < slot'

theorem EmptyAt.exists_cons {slot : Path} {e : EmptySlot} (h : s.EmptyAt slot e) :
  ∃ i below p, slot = i :: below ∧ s.params[i]? = some p
  := by
  obtain ⟨path, index, n, p, rfl, hn, hp, -, -⟩ := h
  cases path with
  | nil =>
    obtain rfl := Option.some.inj hn
    exact ⟨index, [], p, rfl, hp⟩
  | cons i path =>
    obtain ⟨c, hc, -⟩ := Option.bind_eq_some_iff.mp hn
    obtain ⟨q, hq, -⟩ := child?_eq_some.mp hc
    exact ⟨i, path.append [index], q, rfl, hq⟩

/-- An empty slot by way of parameter `i` is this parameter itself or an empty slot of its
child. -/
theorem emptyAt_cons_iff {i : Nat} {p : Param Style} (hp : s.params[i]? = some p) {below : Path}
    {e : EmptySlot} :
  s.EmptyAt (i :: below) e
    ↔ p.slot = .empty ∧ below = [] ∧ e = ⟨s.name, p.name⟩
      ∨ ∃ c, p.slot = .child c ∧ c.EmptyAt below e
  := by
  constructor
  · rintro ⟨path, index, n, q, hpath, hn, hq, hempty, rfl⟩
    cases path with
    | nil =>
      obtain ⟨rfl, rfl⟩ := List.cons.inj hpath
      obtain rfl := Option.some.inj hn
      obtain rfl := Option.some.inj (hp.symm.trans hq)
      exact Or.inl ⟨hempty, rfl, rfl⟩
    | cons j path =>
      obtain ⟨rfl, rfl⟩ := List.cons.inj hpath
      obtain ⟨c, hc, hn⟩ := Option.bind_eq_some_iff.mp hn
      obtain ⟨r, hr, hslot⟩ := child?_eq_some.mp hc
      obtain rfl := Option.some.inj (hp.symm.trans hr)
      exact Or.inr ⟨c, hslot, path, index, n, q, rfl, hn, hq, hempty, rfl⟩
  · rintro (⟨hempty, rfl, rfl⟩ | ⟨c, hc, path, index, n, q, rfl, hn, hq, hempty, rfl⟩)
    · exact ⟨[], i, s, p, rfl, rfl, hp, hempty, rfl⟩
    · refine ⟨i :: path, index, n, q, rfl, ?_, hq, hempty, rfl⟩
      rw [at?, child?_eq_some.mpr ⟨p, hp, hc⟩, Option.bind_some, hn]

theorem EmptyAt.unique {slot : Path} {e e' : EmptySlot} (h : s.EmptyAt slot e)
    (h' : s.EmptyAt slot e') :
  e = e'
  := by
  obtain ⟨path, index, n, p, rfl, hn, hp, -, rfl⟩ := h
  obtain ⟨path', index', n', p', hslot, hn', hp', -, rfl⟩ := h'
  obtain ⟨rfl, hindex⟩ := List.append_inj' hslot rfl
  obtain rfl := List.singleton_inj.mp hindex
  obtain rfl := Option.some.inj (hn.symm.trans hn')
  obtain rfl := Option.some.inj (hp.symm.trans hp')
  rfl

theorem FirstEmpty.unique {slot slot' : Path} {e e' : EmptySlot} (h : s.FirstEmpty slot e)
    (h' : s.FirstEmpty slot' e') :
  e = e'
  := by
  rcases h.least _ _ h'.emptyAt with rfl | hlt
  · apply h.emptyAt.unique h'.emptyAt
  · rcases h'.least _ _ h.emptyAt with rfl | hlt'
    · apply h.emptyAt.unique h'.emptyAt
    · exact absurd hlt' (List.lt_asymm hlt)

/-- Slots below earlier parameters come first. -/
theorem FirstEmpty.of_index {i : Nat} {slot : Path} {e : EmptySlot} (h : s.EmptyAt (i :: slot) e)
    (hbefore : ∀ j < i, ∀ slot' e', ¬ s.EmptyAt (j :: slot') e')
    (hbelow : ∀ slot' e', s.EmptyAt (i :: slot') e' → slot = slot' ∨ slot < slot') :
  s.FirstEmpty (i :: slot) e
  := by
  refine ⟨h, ?_⟩
  intro slot' e' h'
  obtain ⟨j, below, -, rfl, -⟩ := h'.exists_cons
  rcases lt_trichotomy i j with hlt | rfl | hlt
  · exact Or.inr (List.cons_lt_cons_iff.mpr (Or.inl hlt))
  · apply (hbelow _ _ h').imp (congrArg (i :: ·))
    exact fun hlt => List.cons_lt_cons_iff.mpr (Or.inr ⟨rfl, hlt⟩)
  · exact absurd h' (hbefore j hlt _ _)

/-! ### Nodes without empty slots -/

/-- None of the slots of a node is empty. -/
def Filled (s : Style) : Prop := ∀ p ∈ s.params, p.slot ≠ .empty

theorem validate_eq_ok_iff :
  s.validate = .ok () ↔ s.Filled
  := by
  have hfind : s.params.find? (·.slot.isEmpty) = none ↔ s.Filled := by
    rw [List.find?_eq_none]
    apply forall₂_congr
    intro p _
    cases p.slot <;> simp [Slot.isEmpty]
  rw [validate, ← hfind]
  cases s.params.find? (·.slot.isEmpty) <;> simp

theorem everywhere_filled_iff :
  s.Everywhere Filled ↔ ∀ slot e, ¬ s.EmptyAt slot e
  := by
  constructor
  · rintro h slot e ⟨path, index, n, p, -, hn, hp, hempty, -⟩
    apply (h.at? hn).here p (List.mem_of_getElem? hp) hempty
  · intro h
    induction s using Style.induction with
    | step s ih =>
      apply Everywhere.node
      · intro p hp hempty
        obtain ⟨i, hi⟩ := List.mem_iff_getElem?.mp hp
        exact h [i] _ ((emptyAt_cons_iff hi).mpr (Or.inl ⟨hempty, rfl, rfl⟩))
      · intro p hp c hc
        obtain ⟨i, hi⟩ := List.mem_iff_getElem?.mp hp
        apply ih p hp c hc
        intro slot e he
        exact h (i :: slot) e ((emptyAt_cons_iff hi).mpr (Or.inr ⟨c, hc, he⟩))

theorem isComplete_eq (s : Style) :
  s.isComplete = areComplete s.params
  := by
  cases s
  rfl

/-- The editor engine looks at the slots of all nodes. -/
theorem isComplete_iff :
  s.isComplete = true ↔ s.Everywhere Filled
  := by
  have hparams : ∀ params : List (Param Style),
      areComplete params = true ↔ ∀ p ∈ params, slotIsComplete p.slot = true := by
    intro params
    induction params with
    | nil => simp [areComplete]
    | cons p params ih => simp [areComplete, ih]
  induction s using Style.induction with
  | step s ih =>
    rw [isComplete_eq, hparams]
    constructor
    · intro h
      apply Everywhere.node
      · intro p hp hempty
        have hcomplete := h p hp
        rw [hempty] at hcomplete
        cases hcomplete
      · intro p hp c hc
        apply (ih p hp c hc).mp
        have hcomplete := h p hp
        rw [hc] at hcomplete
        exact hcomplete
    · intro h p hp
      cases hc : p.slot with
      | empty => exact absurd hc (h.here p hp)
      | child c => exact (ih p hp c hc).mpr (h.child hp hc)
      | number _ | bits _ | bool _ => rfl

/-- The empty slots are what is found by the rule for them. -/
theorem exists_finding_iff :
  (∃ f ∈ s.findings, f.rule = Rule.filled.name) ↔ ∃ slot e, s.EmptyAt slot e
  := by
  constructor
  · rintro ⟨f, hf, hrule⟩
    obtain ⟨⟨path, rule, index⟩, n, p, issue, hn, hp, h, rfl⟩ :=
      (enumerates_findings s).mem_iff.mp hf
    cases h with
    | filled h => exact ⟨_, _, path, index, n, p, rfl, hn, hp, h, rfl⟩
    | accepted | referring => simp [Finding.rule, Issue.rule, Rule.name] at hrule
  · rintro ⟨slot, e, path, index, n, p, -, hn, hp, hempty, -⟩
    refine ⟨⟨path, n.name, .emptyParam p.name⟩, (enumerates_findings s).mem_iff.mpr ?_, rfl⟩
    exact ⟨⟨path, .filled, index⟩, n, p, _, hn, hp, .filled hempty, rfl⟩

/-! ### What cannot be written -/

variable {layout : Layout}

/-- Parameters that cannot be written have a first one that is empty or has a child that cannot be
written. -/
theorem exists_of_writeParams_eq_error {params : List (Param Style)} {style : String} {apart : Bool}
    {e : EmptySlot} (h : writeParams layout params style apart = .error e) :
  ∃ (i : Nat) (p : Param Style), params[i]? = some p
    ∧ (∀ j < i, ∀ q, params[j]? = some q →
      ∃ text, writeSlot layout q.slot q.comment apart = some (.ok text))
    ∧ (p.slot = .empty ∧ e = ⟨style, p.name⟩ ∨ ∃ c, p.slot = .child c ∧ c.write layout = .error e)
  := by
  induction params with
  | nil => cases h
  | cons p params ih =>
    have hnone : ∀ j < 0, ∀ q, (p :: params)[j]? = some q →
        ∃ text, writeSlot layout q.slot q.comment apart = some (.ok text) :=
      fun j hj => absurd hj (Nat.not_lt_zero j)
    cases hslot : writeSlot layout p.slot p.comment apart with
    | none =>
      obtain ⟨name, kind, slot, comment⟩ := p
      simp only [writeParams, hslot] at h
      obtain rfl := Except.error.inj h
      refine ⟨0, _, rfl, hnone, Or.inl ⟨?_, rfl⟩⟩
      cases slot with
      | empty => rfl
      | number _ | bits _ | bool _ | child _ => cases hslot
    | some written =>
      cases written with
      | error e' =>
        obtain ⟨name, kind, slot, comment⟩ := p
        simp only [writeParams, hslot] at h
        obtain rfl := Except.error.inj h
        refine ⟨0, _, rfl, hnone, Or.inr ?_⟩
        cases slot with
        | child c => exact ⟨c, rfl, eq_error_of_map (Option.some.inj hslot)⟩
        | number _ | bits _ | bool _ | empty => cases hslot
      | ok text =>
        rw [writeParams_cons hslot] at h
        obtain ⟨i, q, hq, hbefore, hfailed⟩ := ih (eq_error_of_map h)
        refine ⟨i + 1, q, hq, ?_, hfailed⟩
        intro j hj r hr
        cases j with
        | zero =>
          obtain rfl := Option.some.inj hr
          exact ⟨text, hslot⟩
        | succ j => exact hbefore j (Nat.lt_of_succ_lt_succ hj) r hr

/-- A node has no parameters if it is of the Builtin category, so that only its name is
written. -/
def Bare (s : Style) : Prop := s.category = .builtin → s.params = []

/-- A tree that is written has no empty slot. -/
theorem everywhere_filled_of_write_eq_ok (h : s.Everywhere Bare) {cs : List Char}
    (hwrite : s.write layout = .ok cs) :
  s.Everywhere Filled
  := by
  induction h generalizing cs with
  | @node s here _ ih =>
    by_cases hcategory : s.category = .builtin
    · have hparams := here hcategory
      apply Everywhere.node
      · intro p hp
        rw [hparams] at hp
        cases hp
      · intro p hp
        rw [hparams] at hp
        cases hp
    · apply Everywhere.node
      · intro p hp
        exact (exists_write_of_write_eq_ok hcategory hwrite hp).1
      · intro p hp c hc
        obtain ⟨cs, hcs⟩ := (exists_write_of_write_eq_ok hcategory hwrite hp).2 c hc
        apply ih p hp c hc hcs

/-- A parameter that is written leaves no empty slot by way of it. -/
theorem not_emptyAt_of_writeSlot {i : Nat} {p : Param Style} (hp : s.params[i]? = some p)
    (hbare : ∀ c, p.slot = .child c → c.Everywhere Bare) {apart : Bool} {text : List Char}
    (h : writeSlot layout p.slot p.comment apart = some (.ok text)) (below : Path) (e : EmptySlot) :
  ¬ s.EmptyAt (i :: below) e
  := by
  intro hempty
  rcases (emptyAt_cons_iff hp).mp hempty with ⟨hslot, -⟩ | ⟨c, hslot, hbelow⟩
  · rw [hslot] at h
    cases h
  · rw [hslot] at h
    obtain ⟨cs, hcs, -⟩ := exists_of_map_eq_ok (Option.some.inj h)
    have hfilled := everywhere_filled_of_write_eq_ok (hbare c hslot) hcs
    exact everywhere_filled_iff.mp hfilled _ _ hbelow

/-- A tree that cannot be written has a first empty slot, which is the one reported; by induction
on the tree. -/
theorem exists_firstEmpty_of_write_eq_error (h : s.Everywhere Bare) {e : EmptySlot}
    (hwrite : s.write layout = .error e) :
  ∃ slot, s.FirstEmpty slot e
  := by
  induction h with
  | @node s _ hchildren ih =>
    rw [write_eq] at hwrite
    split at hwrite
    · cases hwrite
    obtain ⟨i, p, hp, hbefore, hfailed⟩ := exists_of_writeParams_eq_error (eq_error_of_map hwrite)
    have hearlier : ∀ j < i, ∀ slot' e', ¬ s.EmptyAt (j :: slot') e' := by
      intro j hj slot' e' hempty
      obtain ⟨k, below, q, hpath, hq⟩ := hempty.exists_cons
      obtain ⟨rfl, rfl⟩ := List.cons.inj hpath
      obtain ⟨text, htext⟩ := hbefore j hj q hq
      have hbare := hchildren q (List.mem_of_getElem? hq)
      apply not_emptyAt_of_writeSlot hq hbare htext _ _ hempty
    rcases hfailed with ⟨hempty, rfl⟩ | ⟨c, hc, hwrite⟩
    · refine ⟨[i], FirstEmpty.of_index ?_ hearlier ?_⟩
      · exact (emptyAt_cons_iff hp).mpr (Or.inl ⟨hempty, rfl, rfl⟩)
      · intro slot' e' h
        rcases (emptyAt_cons_iff hp).mp h with ⟨-, rfl, -⟩ | ⟨c, hc, -⟩
        · exact Or.inl rfl
        · rw [hempty] at hc
          cases hc
    · obtain ⟨slot, hslot, hleast⟩ := ih p (List.mem_of_getElem? hp) c hc hwrite
      refine ⟨i :: slot, FirstEmpty.of_index ?_ hearlier ?_⟩
      · exact (emptyAt_cons_iff hp).mpr (Or.inr ⟨c, hc, hslot⟩)
      · intro slot' e' h
        rcases (emptyAt_cons_iff hp).mp h with ⟨hempty, -⟩ | ⟨d, hd, hbelow⟩
        · rw [hc] at hempty
          cases hempty
        · obtain rfl := Slot.child.inj (hc.symm.trans hd)
          apply hleast _ _ hbelow

theorem exists_text_iff (h : s.Everywhere Bare) :
  (∃ text, s.text layout = .ok text) ↔ s.Everywhere Filled
  := by
  constructor
  · rintro ⟨text, htext⟩
    obtain ⟨cs, hcs, -⟩ := exists_of_map_eq_ok htext
    apply everywhere_filled_of_write_eq_ok h hcs
  · intro hfilled
    cases htext : s.text layout with
    | ok text => use text
    | error e =>
      obtain ⟨slot, hslot⟩ := exists_firstEmpty_of_write_eq_error h (eq_error_of_map htext)
      exact absurd hslot.emptyAt (everywhere_filled_iff.mp hfilled _ _)

theorem text_eq_error_iff (h : s.Everywhere Bare) {e : EmptySlot} :
  s.text layout = .error e ↔ ∃ slot, s.FirstEmpty slot e
  := by
  constructor
  · intro htext
    apply exists_firstEmpty_of_write_eq_error h (eq_error_of_map htext)
  · rintro ⟨slot, hslot⟩
    cases htext : s.text layout with
    | ok text =>
      have hfilled := (exists_text_iff h).mp ⟨text, htext⟩
      exact absurd hslot.emptyAt (everywhere_filled_iff.mp hfilled _ _)
    | error e' =>
      obtain ⟨slot', hslot'⟩ := exists_firstEmpty_of_write_eq_error h (eq_error_of_map htext)
      rw [hslot.unique hslot']

/-- The different walks over a tree, of which nothing stands below a node of the Builtin category,
agree on whether it is complete.  It can be written in each layout, the editor engine counts it as
complete and it has no finding of an empty slot exactly if the check of every node passes.
Otherwise writing fails in each layout with the node and the parameter of the empty slot that comes
before all others from left to right and from the root down. -/
theorem complete_iff_and_first_empty_slot (hbare : s.Everywhere Bare) :
  (∀ layout, (∃ text, s.text layout = .ok text) ↔ s.Everywhere fun n => n.validate = .ok ())
    ∧ (∀ engine : Engine, engine.root = s →
      (engine.isComplete = true ↔ s.Everywhere fun n => n.validate = .ok ()))
    ∧ ((∀ f ∈ s.findings, f.rule ≠ "empty-parameter")
      ↔ s.Everywhere fun n => n.validate = .ok ())
    ∧ ∀ layout e, s.text layout = .error e ↔ ∃ slot, s.FirstEmpty slot e
  := by
  have hvalid : (s.Everywhere fun n => n.validate = .ok ()) ↔ s.Everywhere Filled := by
    constructor
    · exact fun h => h.imp fun _ => validate_eq_ok_iff.mp
    · exact fun h => h.imp fun _ => validate_eq_ok_iff.mpr
  rw [hvalid]
  refine ⟨?_, ?_, ?_, ?_⟩
  · intro layout
    apply exists_text_iff hbare
  · rintro engine rfl
    apply isComplete_iff
  · rw [everywhere_filled_iff, ← not_iff_not]
    push Not
    exact exists_finding_iff
  · intro layout e
    apply text_eq_error_iff hbare

/-- The empty slot of the function comes before that of the mix, which is found first. -/
theorem complete_iff_and_first_empty_slot_unevenMix :
  unevenMix.Everywhere Bare
    ∧ unevenMix.text .multiline = .error ⟨"Dim", "Value"⟩
    ∧ unevenMix.text .compact = .error ⟨"Dim", "Value"⟩
    ∧ (Engine.ofStyle unevenMix).isComplete = false
    ∧ unevenMix.findings.head? = some ⟨[], "Mix", .emptyParam "Other"⟩
  := by
  have hbare : unevenMix.Everywhere Bare := by
    apply Everywhere.node (fun h => absurd h (by decide))
    simp only [unevenMix, ofParams, List.forall_mem_cons]
    refine ⟨fun c hc => ?_, fun c hc => ?_, List.forall_mem_nil _⟩
    · obtain rfl := Slot.child.inj hc
      apply Everywhere.node (fun h => absurd h (by decide))
      simp [danglingDim, ofParams, Param.ofStyle, Param.referringTo]
    · cases hc
  obtain ⟨hwrite, hengine, -, hfirst⟩ := complete_iff_and_first_empty_slot hbare
  have hmultiline : unevenMix.text .multiline = .error ⟨"Dim", "Value"⟩ := by decide +kernel
  refine ⟨hbare, hmultiline, ?_, ?_, by decide +kernel⟩
  · exact (hfirst _ _).mpr ((hfirst _ _).mp hmultiline)
  · apply eq_false_of_ne_true
    intro hcomplete
    obtain ⟨text, htext⟩ := (hwrite .multiline).mpr ((hengine _ rfl).mp hcomplete)
    rw [hmultiline] at htext
    cases htext

end Style

end BladeStyle
