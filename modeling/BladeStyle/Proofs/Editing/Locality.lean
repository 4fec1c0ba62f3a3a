import BladeStyle.Proofs.Editing.Sync

/-!
# Mutations are local

A mutation does at one node what the operation that it names does there, and is refused if
this is refused.  The rest of the tree stays: nodes beside the path of the mutation are the
same, those above it differ in the child on the way, and the children of the node move to
other places only if a parameter is inserted or removed before them.
-/

namespace BladeStyle

/-- The style among the values. -/
def Value.style? : Value → Option Style
  | int _ => none
  | style s => some s

theorem Param.child?_of_isLiteral {p : Param Style} (h : p.isLiteral) :
  p.child? = none
  := by
  rw [Option.eq_none_iff_forall_ne_some]
  intro c hc
  rw [isLiteral, Slot.child?_eq_some.mp hc] at h
  cases h

/-- A parameter that stores a value has the child that the value is. -/
theorem Param.child?_of_store {p q : Param Style} {value : Value} (h : p.store value = .ok q) :
  q.child? = value.style?
  := by
  cases value with
  | style s =>
    obtain ⟨-, -, rfl⟩ := fill_eq_ok h
    rfl
  | int n =>
    rw [Value.style?, Option.eq_none_iff_forall_ne_some]
    intro c hc
    have hvalue := child_of_store h (Slot.child?_eq_some.mp hc)
    cases hvalue

namespace Edit

/-! ### The outcome of an edit -/

/-- An edit that replaces parameter `i` by what `f` makes of it.  Only a composite parameter can
be detached. -/
inductive OnParam :
    Edit → (i : Nat) → (f : Param Style → Except BindError (Param Style)) → Prop where
  | number (i : Nat) (value : Int) : OnParam (setNumber i value) i fun p => p.storeNumber value
  | bits (i : Nat) (value : BitVec 16) :
      OnParam (setBits i value) i fun p => p.storeBits value.toNat
  | bool (i : Nat) (value : Bool) : OnParam (setBool i value) i fun p => p.storeBool value
  | style (i : Nat) (style : Style) : OnParam (setStyle i style) i fun p => p.fill style
  | detached (i : Nat) : OnParam (detachStyle i) i fun p =>
      if p.isLiteral then .error (.expectedStyle p.name) else .ok p.detached

/-- What an edit comes to at the node `s` alone. -/
inductive Outcome (s : Style) : Edit → Except BindError Style → Prop where
  | missing {e : Edit} {i : Nat} {f : Param Style → Except BindError (Param Style)}
      (he : OnParam e i f) (hp : s.params[i]? = none) :
      Outcome s e (.error (.indexOutOfRange s.name i s.params.length))
  | param {e : Edit} {i : Nat} {f : Param Style → Except BindError (Param Style)} {p : Param Style}
      (he : OnParam e i f) (hp : s.params[i]? = some p) :
      Outcome s e ((f p).map fun q => { s with params := s.params.set i q })
  | inserted (i : Nat) (value : Value) : Outcome s (addParam i value) (s.insertRepeat i value)
  | removed (i : Nat) : Outcome s (removeParam i) ((s.removeRepeat i).map Prod.snd)
  | commented (comment : String) : Outcome s (setComment comment) (.ok { s with comment })

variable {e : Edit} {s t : Style}

/-- An edit of one parameter updates that parameter. -/
theorem OnParam.apply {i : Nat} {f : Param Style → Except BindError (Param Style)}
    (he : OnParam e i f) (s : Style) :
  e.apply s = s.updateParam i f
  := by
  cases he <;> rfl

/-- An edit of one parameter has the outcome that is described for it. -/
theorem OnParam.outcome {i : Nat} {f : Param Style → Except BindError (Param Style)}
    (he : OnParam e i f) (s : Style) :
  e.Outcome s (e.apply s)
  := by
  rw [he.apply, Style.updateParam]
  cases hp : s.params[i]? with
  | none => apply Outcome.missing he hp
  | some p => apply Outcome.param he hp

/-- Every edit has one outcome, and this is what applying it gives. -/
theorem outcome_iff {outcome : Except BindError Style} :
  e.Outcome s outcome ↔ outcome = e.apply s
  := by
  constructor
  · intro h
    cases h with
    | missing he hp | param he hp => rw [he.apply, Style.updateParam, hp]
    | inserted | removed | commented => rfl
  · rintro rfl
    cases e with
    | setNumber i value => apply (OnParam.number i value).outcome
    | setBits i value => apply (OnParam.bits i value).outcome
    | setBool i value => apply (OnParam.bool i value).outcome
    | setStyle i style => apply (OnParam.style i style).outcome
    | detachStyle i => apply (OnParam.detached i).outcome
    | addParam i value => apply Outcome.inserted
    | removeParam i => apply Outcome.removed
    | setComment comment => apply Outcome.commented

/-! ### The children of the node -/

/-- Where an edit leaves what is below a node.  The nodes at the paths from the node on are
given by `before` before the edit and by `after` after it. -/
def Moves (before after : Path → Option Style) : Edit → Prop
  | setNumber .. | setBits .. | setBool .. | setComment _ =>
    ∀ j q, after (j :: q) = before (j :: q)
  | setStyle i style =>
    (∀ q, after (i :: q) = style.at? q) ∧ ∀ j q, j ≠ i → after (j :: q) = before (j :: q)
  | detachStyle i =>
    (∀ q, after (i :: q) = none) ∧ ∀ j q, j ≠ i → after (j :: q) = before (j :: q)
  | addParam i value =>
    (∀ q, after (i :: q) = value.style?.bind fun c => c.at? q)
      ∧ (∀ j q, i ≤ j → after ((j + 1) :: q) = before (j :: q))
      ∧ ∀ j q, j < i → after (j :: q) = before (j :: q)
  | removeParam i =>
    (∀ j q, i < j → after ((j - 1) :: q) = before (j :: q))
      ∧ ∀ j q, j < i → after (j :: q) = before (j :: q)

end Edit

namespace Style

variable {s : Style} {i j : Nat} {p q : Param Style}

/-- The child at an index is that of the parameter which was put there. -/
theorem child?_set_self (hp : s.params[i]? = some p) :
  child? { s with params := s.params.set i q } i = q.child?
  := by
  obtain ⟨hlt, -⟩ := List.getElem?_eq_some_iff.mp hp
  rw [child?, List.getElem?_set_self hlt, Option.bind_some]

/-- The children at other indices stay. -/
theorem child?_set_of_ne (h : j ≠ i) :
  child? { s with params := s.params.set i q } j = s.child? j
  := by
  rw [child?, child?, List.getElem?_set_ne (Ne.symm h)]

/-- Below the same child the same nodes are found. -/
theorem at?_of_child? {t : Style} (h : t.child? j = s.child? i) (q : Path) :
  t.at? (j :: q) = s.at? (i :: q)
  := by
  rw [at?, at?, h]

/-- A literal that takes the place of another one leaves all that is below the node. -/
theorem at?_set_of_isLiteral (hp : s.params[i]? = some p) (hliteral : p.isLiteral)
    (hliteral' : q.isLiteral) (j : Nat) (path : Path) :
  at? { s with params := s.params.set i q } (j :: path) = s.at? (j :: path)
  := by
  apply at?_of_child?
  by_cases h : j = i
  · subst h
    rw [child?_set_self hp, child?, hp, Option.bind_some, Param.child?_of_isLiteral hliteral,
      Param.child?_of_isLiteral hliteral']
  · apply child?_set_of_ne h

end Style

namespace Edit

variable {e : Edit} {s t : Style}

/-- The children of a node after an edit. -/
theorem moves_of_apply (h : e.apply s = .ok t) :
  e.Moves s.at? t.at?
  := by
  cases e with
  | setNumber i value =>
    obtain ⟨p, q, hp, hq, rfl⟩ := Style.updateParam_eq_ok.mp h
    obtain ⟨n, hslot, rfl⟩ := Param.storeNumber_eq_ok.mp hq
    apply Style.at?_set_of_isLiteral hp (congrArg Slot.isLiteral hslot) rfl
  | setBits i value =>
    obtain ⟨p, q, hp, hq, rfl⟩ := Style.updateParam_eq_ok.mp h
    obtain ⟨b, hslot, rfl⟩ := Param.storeBits_eq_ok.mp hq
    apply Style.at?_set_of_isLiteral hp (congrArg Slot.isLiteral hslot) rfl
  | setBool i value =>
    obtain ⟨p, q, hp, hq, rfl⟩ := Style.updateParam_eq_ok.mp h
    obtain ⟨b, hslot, rfl⟩ := Param.storeBool_eq_ok.mp hq
    apply Style.at?_set_of_isLiteral hp (congrArg Slot.isLiteral hslot) rfl
  | setStyle i style =>
    obtain ⟨p, q, hp, hq, rfl⟩ := Style.updateParam_eq_ok.mp h
    obtain ⟨-, -, rfl⟩ := Param.fill_eq_ok hq
    constructor
    · intro path
      rw [Style.at?, Style.child?_set_self hp]
      rfl
    · intro j path hj
      apply Style.at?_of_child? (Style.child?_set_of_ne hj)
  | detachStyle i =>
    obtain ⟨p, hp, -, rfl⟩ := detachStyle_eq_ok.mp h
    constructor
    · intro path
      rw [Style.at?, Style.child?_set_self hp]
      rfl
    · intro j path hj
      apply Style.at?_of_child? (Style.child?_set_of_ne hj)
  | addParam i value =>
    obtain ⟨-, hmax, p, hp, rfl⟩ := Style.insertRepeat_eq_ok.mp h
    obtain ⟨tail, -, -, hstore⟩ := Style.nextRepeat_eq_ok.mp hp
    refine ⟨?_, ?_, ?_⟩
    · intro path
      rw [Style.at?, Style.child?, List.getElem?_insertIdx_self, if_pos hmax, Option.bind_some,
        Param.child?_of_store hstore]
    · intro j path hj
      apply Style.at?_of_child?
      rw [Style.child?, Style.child?, List.getElem?_insertIdx_of_gt (by omega),
        Nat.add_sub_cancel]
    · intro j path hj
      apply Style.at?_of_child?
      rw [Style.child?, Style.child?, List.getElem?_insertIdx_of_lt hj]
  | removeParam i =>
    obtain ⟨⟨p, u⟩, hremove, rfl⟩ := exists_of_map_eq_ok h
    obtain ⟨-, -, -, rfl⟩ := Style.removeRepeat_eq_ok.mp hremove
    constructor
    · intro j path hj
      apply Style.at?_of_child?
      rw [Style.child?, Style.child?, List.getElem?_eraseIdx_of_ge (by omega),
        Nat.sub_add_cancel (by omega)]
    · intro j path hj
      apply Style.at?_of_child?
      rw [Style.child?, Style.child?, List.getElem?_eraseIdx_of_lt hj]
  | setComment comment =>
    obtain rfl := Except.ok.inj h
    intro j path
    rfl

end Edit

/-! ### The rest of the tree -/

/-- Two trees that differ at most in the nodes at and below a path, and in the children on the
way to it. -/
structure Style.SameBeside (path : Path) (s t : Style) : Prop where
  beside : ∀ q, ¬ path <+: q → ¬ q <+: path → t.at? q = s.at? q
  above : ∀ q i rest, path = q ++ i :: rest →
    ∃ (a : Style) (p : Param Style) (b c : Style),
      s.at? q = some a ∧ a.params[i]? = some p ∧ p.slot = .child b
        ∧ t.at? q = some { a with params := a.params.set i { p with slot := .child c } }

/-- Replacing a node leaves everything beside the path to it as it was. -/
theorem Style.sameBeside_replaceAt {s n : Style} {path : Path} (h : s.at? path = some n)
    (t : Style) :
  s.SameBeside path (s.replaceAt path t)
  where
  beside q hpath hq := at?_replaceAt_of_not_isPrefix s t hpath hq
  above q i rest hpath := by
    subst hpath
    rw [at?_append] at h
    obtain ⟨a, ha, hn⟩ := Option.bind_eq_some_iff.mp h
    obtain ⟨b, hb, -⟩ := Option.bind_eq_some_iff.mp hn
    obtain ⟨p, hp, hslot, heq⟩ := mapChild_eq_set hb fun c => c.replaceAt rest t
    refine ⟨a, p, b, b.replaceAt rest t, ha, hp, hslot, ?_⟩
    rw [at?_replaceAt_append, ha, Option.map_some, replaceAt, heq]

namespace Engine

variable {e : Engine} {m : Mutation}

/-- A mutation is refused if no node is at its path. -/
theorem apply_of_at?_eq_none (h : e.node? m.path = none) :
  e.apply m = .error (.noNode m.path)
  := by
  rw [node?] at h
  rw [apply_eq, Mutation.apply, h]
  rfl

/-- A mutation is refused if the node at its path refuses the edit, and the error names
that node. -/
theorem apply_of_error {node : Style} {error : BindError} (h : e.node? m.path = some node)
    (herror : m.edit.apply node = .error error) :
  e.apply m = .error (.param m.path node.name error)
  := by
  rw [node?] at h
  rw [apply_eq, Mutation.apply, h]
  simp only [herror]
  rfl

/-- An accepted mutation replaces the node at its path with the edited one. -/
theorem apply_of_ok {node t : Style} (h : e.node? m.path = some node)
    (ht : m.edit.apply node = .ok t) :
  e.apply m = .ok (e.withRoot (e.root.replaceAt m.path t))
  := by
  apply apply_eq_ok.mpr
  exact ⟨_, Mutation.apply_eq_ok.mpr ⟨node, t, h, ht, rfl⟩, rfl⟩

/-- A missing node is reported exactly if there is none at the path of the mutation. -/
theorem apply_eq_noNode_iff {path : Path} :
  e.apply m = .error (.noNode path) ↔ e.node? m.path = none ∧ path = m.path
  := by
  cases h : e.node? m.path with
  | none => simp [apply_of_at?_eq_none h, eq_comm]
  | some node =>
    cases ht : m.edit.apply node with
    | error error => simp [apply_of_error h ht]
    | ok t => simp [apply_of_ok h ht]

/-- A mutation is refused as a whole or changes one node.  It is refused for want of a node
exactly if there is none at its path.  Otherwise it does there what its operation comes to at
the node alone, and is refused if this is refused.  A refused mutation leaves the engine as it
is.  An accepted one marks the text as stale, puts the changed node in its place, keeps the
tree beside it, and moves the children of the node as the edit asks. -/
theorem mutations_are_local (e : Engine) (m : Mutation) :
  (∀ path, e.apply m = .error (.noNode path) ↔ e.node? m.path = none ∧ path = m.path)
    ∧ (∀ error, e.apply m = .error error →
      e.answer (.apply m) = (.refused error, e))
    ∧ ∀ node, e.node? m.path = some node →
      ∃ outcome, m.edit.Outcome node outcome
        ∧ (∀ outcome', m.edit.Outcome node outcome' → outcome' = outcome)
        ∧ (∀ error, outcome = .error error →
          e.apply m = .error (.param m.path node.name error))
        ∧ ∀ t, outcome = .ok t →
          ∃ tree, e.apply m = .ok ⟨tree, e.stored, true⟩
            ∧ tree.at? m.path = some t
            ∧ e.root.SameBeside m.path tree
            ∧ m.edit.Moves (fun q => e.root.at? (m.path ++ q)) (fun q => tree.at? (m.path ++ q))
  := by
  refine ⟨fun path => apply_eq_noNode_iff, ?_, ?_⟩
  · intro error h
    rw [answer, mutate_eq_error_iff.mpr ⟨h, rfl⟩]
    rfl
  · intro node hnode
    use m.edit.apply node, Edit.outcome_iff.mpr rfl, fun _ => Edit.outcome_iff.mp
    constructor
    · intro error herror
      apply apply_of_error hnode herror
    · intro t ht
      have hplaced := Style.at?_replaceAt t hnode
      use e.root.replaceAt m.path t, apply_of_ok hnode ht, hplaced,
        Style.sameBeside_replaceAt hnode t
      have hmoves := Edit.moves_of_apply ht
      have hbefore : (fun q => e.root.at? (m.path ++ q)) = node.at? := by
        funext q
        rw [node?] at hnode
        rw [Style.at?_append, hnode, Option.bind_some]
      have hafter : (fun q => (e.root.replaceAt m.path t).at? (m.path ++ q)) = t.at? := by
        funext q
        rw [Style.at?_append, hplaced, Option.bind_some]
      rw [hbefore, hafter]
      exact hmoves

/-- Below a gradient in which a colour is removed the next colour moves up, the layer beside it
stays, and a number is refused. -/
theorem mutations_are_local_gradient :
  ∃ e : Engine, ofText? "Layers<Gradient<Red, Blue>, BlastL<White>>" = .ok e
    ∧ e.answer (.apply ⟨[0], .setNumber 0 7⟩)
      = (.refused (.param [0] "Gradient" (.expectedStyle "Color")), e)
    ∧ ∃ tree, e.apply ⟨[0], .removeParam 0⟩ = .ok ⟨tree, e.stored, true⟩
      ∧ (e.root.at? [0, 1]).map Style.name = some "Blue" ∧ tree.at? [0, 0] = e.root.at? [0, 1]
      ∧ (e.root.at? [1, 0]).map Style.name = some "White" ∧ tree.at? [1, 0] = e.root.at? [1, 0]
  := by
  have hrun : (ofText? "Layers<Gradient<Red, Blue>, BlastL<White>>").toOption.map (fun e =>
        (e.apply ⟨[0], .setNumber 0 7⟩,
          (e.node? [0]).bind fun node => ((Edit.removeParam 0).apply node).toOption.map Style.name,
          (e.root.at? [0, 1]).map Style.name, (e.root.at? [1, 0]).map Style.name))
      = some (.error (.param [0] "Gradient" (.expectedStyle "Color")), some "Gradient",
          some "Blue", some "White") := by
    decide +kernel
  obtain ⟨e, he, hanswers⟩ := exists_of_map_toOption_eq_some hrun
  simp only [Prod.mk.injEq] at hanswers
  obtain ⟨hrefused, hremoved, hblue, hwhite⟩ := hanswers
  obtain ⟨node, hnode, hok⟩ := Option.bind_eq_some_iff.mp hremoved
  obtain ⟨t, ht, -⟩ := exists_of_map_toOption_eq_some hok
  have hchange := (mutations_are_local e ⟨[0], .setNumber 0 7⟩).2.1 _ hrefused
  obtain ⟨outcome, -, hunique, -, haccepted⟩ :=
    (mutations_are_local e ⟨[0], .removeParam 0⟩).2.2 node hnode
  have houtcome : outcome = .ok t := by
    rw [← hunique _ (Edit.outcome_iff.mpr rfl)]
    exact ht
  obtain ⟨tree, happly, -, hbeside, hmoves⟩ := haccepted t houtcome
  refine ⟨e, he, hchange, tree, happly, hblue, hmoves.1 1 [] Nat.zero_lt_one, hwhite, ?_⟩
  apply hbeside.beside [1, 0] <;> decide

end Engine

end BladeStyle
