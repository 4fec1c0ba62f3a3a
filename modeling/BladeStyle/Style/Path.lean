import BladeStyle.Style.Basic

/-!
# Paths

A path is the list of the parameter indices that lead from the root of a tree to one
of its nodes.  `Style.at?` reads the node at a path and `Style.replaceAt` puts another
node in its place; reading what was put there gives it back.  An edit in place walks to
its node only once: `Style.focus?` finds the node together with the way back from it.
-/

namespace BladeStyle

/-- The parameter indices from the root to a node. -/
abbrev Path := List Nat

namespace Path

def root : Path := []

/-- The path of the child in parameter `index` of the node at `p`. -/
def child (p : Path) (index : Nat) : Path := p ++ [index]

/-- The path of the parent and the index of the parameter that leads on from it. -/
def parent? (p : Path) : Option (Path × Nat) := p.getLast?.map fun index => (p.dropLast, index)

/-- Every index after a slash; a slash alone for the root. -/
def display (p : Path) : String :=
  match p with
  | [] => "/"
  | p => String.join (p.map fun index => s!"/{index}")

@[simp]
theorem parent?_child (p : Path) (index : Nat) :
  (p.child index).parent? = some (p, index)
  := by
  simp [child, parent?]

end Path

namespace Style

/-- The node at a path, if every index on it leads to a child. -/
def at? (s : Style) : Path → Option Style
  | [] => some s
  | index :: p => (s.child? index).bind fun c => c.at? p

/-- The node with `f` applied to the child in parameter `index`. -/
def mapChild (s : Style) (index : Nat) (f : Style → Style) : Style :=
  { s with params := s.params.modify index fun q => { q with slot := q.slot.map f } }

/-- The tree with `t` in place of the node at a path. -/
def replaceAt (s : Style) (path : Path) (t : Style) : Style :=
  match path with
  | [] => t
  | index :: p => s.mapChild index fun c => c.replaceAt p t

/-- The place of a node in a tree: the node that is there, and the tree that comes of
putting another one there. -/
structure Focus where
  node : Style
  put : Style → Style

/-- The place at a path, if every index on it leads to a parameter that holds a child. -/
def focus? (s : Style) : Path → Option Focus
  | [] => some ⟨s, id⟩
  | index :: p =>
    (s.params[index]?).bind fun q =>
      match q.slot with
      | .child c =>
        (c.focus? p).map fun focus =>
          ⟨focus.node, fun t =>
            { s with params := s.params.set index { q with slot := .child (focus.put t) } }⟩
      | _ => none

@[simp]
theorem child?_mapChild (s : Style) (index : Nat) (f : Style → Style) :
  (s.mapChild index f).child? index = (s.child? index).map f
  := by
  cases h : s.params[index]? <;> simp [mapChild, child?, h, Param.child?]

theorem at?_replaceAt {p : Path} {s n : Style} (t : Style) (h : s.at? p = some n) :
  (s.replaceAt p t).at? p = some t
  := by
  induction p generalizing s with
  | nil => rfl
  | cons index p ih =>
    simp only [at?, Option.bind_eq_some_iff] at h
    obtain ⟨c, hc, hn⟩ := h
    simp [at?, replaceAt, hc, ih hn]

end Style

end BladeStyle
