import BladeStyle.Style.Basic

/-!
# Comments of a tree

Nodes and parameters carry comments.  `Style.mapComments` changes every comment of a
tree and nothing else; with the empty comment for all of them it strips the tree.
-/

namespace BladeStyle.Style

mutual

/-- The tree with `f` applied to every comment. -/
def mapComments (f : String → String) : Style → Style
  | ⟨name, title, category, fixedForm, params, declared, comment⟩ =>
    ⟨name, title, category, fixedForm, mapParamComments f params, declared, f comment⟩

/-- The parameters with `f` applied to every comment in them. -/
def mapParamComments (f : String → String) : List (Param Style) → List (Param Style)
  | [] => []
  | ⟨name, kind, slot, comment⟩ :: params =>
    ⟨name, kind, mapSlotComments f slot, f comment⟩ :: mapParamComments f params

/-- The slot with `f` applied to every comment in it. -/
def mapSlotComments (f : String → String) : Slot Style → Slot Style
  | .child s => .child (mapComments f s)
  | .number n => .number n
  | .bits b => .bits b
  | .bool b => .bool b
  | .empty => .empty

end

/-- The tree without comments. -/
def withoutComments (s : Style) : Style := s.mapComments fun _ => ""

theorem mapSlotComments_eq (f : String → String) (s : Slot Style) :
  mapSlotComments f s = s.map (mapComments f)
  := by
  cases s <;> rfl

theorem mapParamComments_eq (f : String → String) (params : List (Param Style)) :
  mapParamComments f params
    = params.map fun p => { p with slot := p.slot.map (mapComments f), comment := f p.comment }
  := by
  induction params with
  | nil => rfl
  | cons p params ih => simp [mapParamComments, mapSlotComments_eq, ih]

/-- The comments of a node change as those of its parameters and children do. -/
theorem mapComments_eq (f : String → String) (s : Style) :
  s.mapComments f
    = { s with
        params := s.params.map fun p =>
          { p with slot := p.slot.map (mapComments f), comment := f p.comment }
        comment := f s.comment }
  := by
  cases s
  simp [mapComments, mapParamComments_eq]

end BladeStyle.Style
