import BladeStyle.Style.Comments

/-!
# Trees

A statement holds everywhere in a tree if it holds of the root and everywhere in the child
of every parameter.  The height of a tree is the number of steps to a child on the longest
way down.  Changing the comments of a tree changes neither its height nor its shape.
-/

namespace BladeStyle

/-- The parameter with `f` applied to its comment and to every comment in its child. -/
def Param.mapComments (f : String → String) (p : Param Style) : Param Style :=
  { p with slot := p.slot.map (Style.mapComments f), comment := f p.comment }

namespace Style

/-- A node with its own parameters is the same node. -/
theorem withParams_eq_self {s : Style} {params : List (Param Style)} (h : params = s.params) :
  { s with params } = s
  := by
  cases s
  rw [h]

/-! ### Everywhere in a tree -/

/-- A statement that holds of a node and of all nodes below it. -/
inductive Everywhere (P : Style → Prop) : Style → Prop where
  | node {s : Style} (here : P s)
      (children : ∀ p ∈ s.params, ∀ c, p.slot = .child c → Everywhere P c) : Everywhere P s

namespace Everywhere

variable {P Q : Style → Prop} {s : Style}

/-- What holds everywhere in a tree holds of its root. -/
theorem here (h : Everywhere P s) :
  P s
  := by
  obtain ⟨here, -⟩ := h
  exact here

/-- What holds everywhere in a tree holds everywhere in each of its children. -/
theorem child (h : Everywhere P s) {p : Param Style} (hp : p ∈ s.params) {c : Style}
    (hc : p.slot = .child c) :
  Everywhere P c
  := by
  obtain ⟨-, children⟩ := h
  apply children p hp c hc

/-- What holds of every node holds everywhere in a tree. -/
theorem of_forall (h : ∀ s, P s) (s : Style) :
  Everywhere P s
  := by
  induction s using Style.induction with
  | step s ih => apply node (h s) ih

/-- A weaker statement holds wherever a stronger one does. -/
theorem imp (h : Everywhere P s) (himp : ∀ s, P s → Q s) :
  Everywhere Q s
  := by
  induction h with
  | node here _ ih => apply node (himp _ here) ih

end Everywhere

/-! ### Height -/

mutual

/-- The number of steps to a child on the longest way down. -/
def height : Style → Nat
  | ⟨_, _, _, _, params, _, _⟩ => paramsHeight params

/-- The steps below a list of parameters. -/
def paramsHeight : List (Param Style) → Nat
  | [] => 0
  | ⟨_, _, slot, _⟩ :: params => max (slotHeight slot) (paramsHeight params)

/-- The steps below a slot. -/
def slotHeight : Slot Style → Nat
  | .child s => height s + 1
  | _ => 0

end

theorem paramsHeight_cons (p : Param Style) (params : List (Param Style)) :
  paramsHeight (p :: params) = max (slotHeight p.slot) (paramsHeight params)
  := rfl

/-- The steps below parameters are bounded if each child has room for one step less. -/
theorem paramsHeight_lt_succ_iff {params : List (Param Style)} {n : Nat} :
  paramsHeight params < n + 1 ↔ ∀ p ∈ params, ∀ c, p.slot = .child c → c.height < n
  := by
  induction params with
  | nil => simp [paramsHeight]
  | cons p params ih =>
    rw [paramsHeight_cons, Nat.max_lt, ih, List.forall_mem_cons]
    apply and_congr_left'
    cases p.slot <;> simp [slotHeight]

theorem height_eq (s : Style) :
  s.height = paramsHeight s.params
  := by
  cases s
  rfl

/-- A node is as high as its highest child and one more. -/
theorem height_lt_succ_iff {s : Style} {n : Nat} :
  s.height < n + 1 ↔ ∀ p ∈ s.params, ∀ c, p.slot = .child c → c.height < n
  := by
  rw [height_eq]
  apply paramsHeight_lt_succ_iff

/-! ### Comments -/

variable (f : String → String)

/-- Changing the comments of a style changes its own one and those of its parameters. -/
theorem mapComments_eq_map (s : Style) :
  s.mapComments f
    = { s with params := s.params.map (Param.mapComments f), comment := f s.comment }
  := mapComments_eq f s

@[simp]
theorem name_mapComments (s : Style) :
  (s.mapComments f).name = s.name
  := by
  rw [mapComments_eq]

@[simp]
theorem category_mapComments (s : Style) :
  (s.mapComments f).category = s.category
  := by
  rw [mapComments_eq]

@[simp]
theorem fixedForm_mapComments (s : Style) :
  (s.mapComments f).fixedForm = s.fixedForm
  := by
  rw [mapComments_eq]

@[simp]
theorem params_mapComments (s : Style) :
  (s.mapComments f).params = s.params.map (Param.mapComments f)
  := by
  rw [mapComments_eq_map]

@[simp]
theorem comment_mapComments (s : Style) :
  (s.mapComments f).comment = f s.comment
  := by
  rw [mapComments_eq]

/-- Changing the comments twice changes them once by both functions together. -/
theorem mapComments_mapComments (f g : String → String) (s : Style) :
  (s.mapComments f).mapComments g = s.mapComments (g ∘ f)
  := by
  induction s using Style.induction with
  | step s ih =>
    simp only [mapComments_eq_map, List.map_map]
    congr 1
    apply List.map_congr_left
    intro p hp
    cases hslot : p.slot with
    | child c => simp [Param.mapComments, hslot, Slot.map, ih p hp c hslot]
    | number _ | bits _ | bool _ | empty => simp [Param.mapComments, hslot, Slot.map]

/-- A child of a style with changed comments is a child of that style with its comments
changed. -/
theorem exists_of_mem_params_mapComments {f : String → String} {s : Style} {q : Param Style}
    (hq : q ∈ (s.mapComments f).params) {d : Style} (hd : q.slot = .child d) :
  ∃ p ∈ s.params, ∃ c, p.slot = .child c ∧ c.mapComments f = d
  := by
  rw [params_mapComments] at hq
  obtain ⟨p, hp, rfl⟩ := List.mem_map.mp hq
  refine ⟨p, hp, ?_⟩
  cases hslot : p.slot with
  | child c =>
    simp only [Param.mapComments, hslot, Slot.map, Slot.child.injEq] at hd
    exact ⟨c, rfl, hd⟩
  | number _ | bits _ | bool _ | empty =>
    simp only [Param.mapComments, hslot, Slot.map] at hd
    cases hd

/-- What holds everywhere in a tree gives what holds everywhere after a change of the
comments. -/
theorem Everywhere.mapComments {P Q : Style → Prop} {f : String → String} {s : Style}
    (h : s.Everywhere P) (himp : ∀ s, P s → Q (s.mapComments f)) :
  (s.mapComments f).Everywhere Q
  := by
  induction h with
  | @node s here _ ih =>
    apply node (himp s here)
    intro q hq d hd
    obtain ⟨p, hp, c, hc, rfl⟩ := exists_of_mem_params_mapComments hq hd
    apply ih p hp c hc

/-- A function that keeps the height of a child keeps the height of its slot. -/
theorem slotHeight_map {f : Style → Style} {slot : Slot Style}
    (h : ∀ c, slot = .child c → (f c).height = c.height) :
  slotHeight (slot.map f) = slotHeight slot
  := by
  cases slot with
  | child c => simp only [Slot.map, slotHeight, h c rfl]
  | number _ | bits _ | bool _ | empty => rfl

/-- Comments do not add to the height of a style. -/
theorem height_mapComments (s : Style) :
  (s.mapComments f).height = s.height
  := by
  have key : ∀ params : List (Param Style),
      (∀ p ∈ params, ∀ c, p.slot = .child c → (c.mapComments f).height = c.height) →
        paramsHeight (params.map (Param.mapComments f)) = paramsHeight params := by
    intro params h
    induction params with
    | nil => rfl
    | cons p params ih =>
      obtain ⟨hp, hparams⟩ := List.forall_mem_cons.mp h
      rw [List.map_cons, paramsHeight_cons, paramsHeight_cons, ih hparams]
      congr 1
      apply slotHeight_map hp
  induction s using Style.induction with
  | step s ih => rw [height_eq, height_eq, params_mapComments, key s.params ih]

/-- Comments that `f` leaves alone. -/
def CommentsFixed (s : Style) : Prop :=
  f s.comment = s.comment ∧ ∀ p ∈ s.params, f p.comment = p.comment

/-- A function that leaves every comment alone leaves the style alone. -/
theorem mapComments_eq_self {f : String → String} {s : Style} (h : s.Everywhere (CommentsFixed f)) :
  s.mapComments f = s
  := by
  induction h with
  | @node s here _ ih =>
    have hparams : s.params.map (Param.mapComments f) = s.params := by
      apply Eq.trans _ (List.map_id _)
      apply List.map_congr_left
      intro p hp
      obtain ⟨name, kind, slot, comment⟩ := p
      have hcomment := here.2 _ hp
      cases slot with
      | child c =>
        have hc := ih _ hp c rfl
        simp_all [Param.mapComments, Slot.map]
      | number _ | bits _ | bool _ | empty => simp_all [Param.mapComments, Slot.map]
    rw [mapComments_eq_map, here.1]
    apply withParams_eq_self hparams

end Style

end BladeStyle
