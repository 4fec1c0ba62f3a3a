import BladeStyle.Style.Binding

/-!
# Registries

A registry holds, in eleven sections, the kinds of style that a text may name.  Each
entry is a template: the node with its declared defaults.  Within a section a name has
at most one template, and registering the name again replaces it.  A name is looked up
in the sections in a fixed order, so that an earlier section shadows a later one.

The entries are kept in the order of sections and, within a section, of names; hence
two registries that hold the same templates are equal.
-/

namespace BladeStyle

/-- The sections of a registry. -/
inductive Section where
  | function
  | timeFunction
  | color
  | fixedColor
  | builtin
  | argument
  | lockupType
  | effect
  | transition
  | layer
  | wrapper
  deriving DecidableEq

namespace Section

/-- All sections, in the order in which a name is looked up. -/
def all : List Section :=
  [function, timeFunction, color, fixedColor, builtin, argument, lockupType, effect,
    transition, layer, wrapper]

/-- The place of a section in the order of lookup. -/
def position : Section → Nat
  | function => 0
  | timeFunction => 1
  | color => 2
  | fixedColor => 3
  | builtin => 4
  | argument => 5
  | lockupType => 6
  | effect => 7
  | transition => 8
  | layer => 9
  | wrapper => 10

theorem mem_all (x : Section) :
  x ∈ all
  := by
  cases x <;> simp [all]

theorem position_injective {x y : Section} (h : x.position = y.position) :
  x = y
  := by
  revert h
  cases x <;> cases y <;> decide

/-- The identifier of a section. -/
def name : Section → String
  | function => "Function"
  | timeFunction => "TimeFunction"
  | color => "Color"
  | fixedColor => "FixedColor"
  | builtin => "Builtin"
  | argument => "Argument"
  | lockupType => "LockupType"
  | effect => "Effect"
  | transition => "Transition"
  | layer => "Layer"
  | wrapper => "Wrapper"

/-- The section with the given identifier. -/
def ofName? (name : String) : Option Section := all.find? (·.name == name)

end Section

/-- A template and the section it is registered in. -/
structure Entry where
  home : Section
  template : Style

namespace Entry

/-- The name under which a template is found. -/
def name (e : Entry) : String := e.template.name

/-- The order of entries: by section, then by name. -/
def Before (e f : Entry) : Prop :=
  e.home.position < f.home.position ∨ e.home = f.home ∧ e.name < f.name

instance (e f : Entry) : Decidable (e.Before f) := inferInstanceAs (Decidable (_ ∨ _))

theorem Before.trans {e f g : Entry} (hef : e.Before f) (hfg : f.Before g) :
  e.Before g
  := by
  rcases hef with h | ⟨h, hn⟩ <;> rcases hfg with h' | ⟨h', hn'⟩
  · exact Or.inl (Nat.lt_trans h h')
  · exact Or.inl (h' ▸ h)
  · exact Or.inl (h ▸ h')
  · exact Or.inr ⟨h.trans h', String.lt_trans hn hn'⟩

theorem Before.irrefl (e : Entry) :
  ¬ e.Before e
  := by
  simp [Before]

/-- Two entries of which neither comes before the other have the same section and the
same name. -/
theorem eq_of_not_before {e f : Entry} (hef : ¬ e.Before f) (hfe : ¬ f.Before e) :
  e.home = f.home ∧ e.name = f.name
  := by
  simp only [Before, not_or, not_and, Nat.not_lt, String.not_lt] at hef hfe
  have h := Section.position_injective (Nat.le_antisymm hfe.1 hef.1)
  exact ⟨h, String.le_antisymm (hfe.2 h.symm) (hef.2 h)⟩

/-- Puts an entry into its place in a list, over an entry of the same section and
name. -/
def insert (e : Entry) : List Entry → List Entry
  | [] => [e]
  | f :: fs =>
    if e.Before f then e :: f :: fs
    else if f.Before e then f :: insert e fs
    else e :: fs

theorem mem_of_mem_insert {e g : Entry} {fs : List Entry} (h : g ∈ insert e fs) :
  g = e ∨ g ∈ fs
  := by
  induction fs with
  | nil => simpa [insert] using h
  | cons f fs ih =>
    simp only [insert] at h
    grind

theorem pairwise_insert (e : Entry) {fs : List Entry} (h : fs.Pairwise Before) :
  (insert e fs).Pairwise Before
  := by
  induction fs with
  | nil => simp [insert]
  | cons f fs ih =>
    obtain ⟨hf, hfs⟩ := List.pairwise_cons.1 h
    simp only [insert]
    split
    case isTrue hef =>
      refine List.pairwise_cons.2 ⟨?_, h⟩
      intro g hg
      rcases List.mem_cons.1 hg with rfl | hg
      · exact hef
      · exact hef.trans (hf g hg)
    case isFalse hef =>
      split
      case isTrue hfe =>
        refine List.pairwise_cons.2 ⟨?_, ih hfs⟩
        intro g hg
        rcases mem_of_mem_insert hg with rfl | hg
        · exact hfe
        · exact hf g hg
      case isFalse hfe =>
        refine List.pairwise_cons.2 ⟨?_, hfs⟩
        intro g hg
        have same := eq_of_not_before hef hfe
        have hfg := hf g hg
        simpa only [Before, same.1, same.2] using hfg

end Entry

/-- The templates that a text may name. -/
structure Registry where
  entries : List Entry
  sorted : entries.Pairwise Entry.Before

namespace Registry

/-- The registry without templates. -/
def empty : Registry := ⟨[], List.Pairwise.nil⟩

/-- The registry with a further template in a section. -/
def insert (r : Registry) (home : Section) (template : Style) : Registry :=
  ⟨Entry.insert ⟨home, template⟩ r.entries, Entry.pairwise_insert _ r.sorted⟩

/-- The template of a name in one section. -/
def get? (r : Registry) (home : Section) (name : String) : Option Style :=
  (r.entries.find? fun e => e.home = home ∧ e.name = name).map Entry.template

/-- Registers a template under its name.  Also gives the template that it replaces. -/
def register (r : Registry) (home : Section) (template : Style) : Option Style × Registry :=
  (r.get? home template.name, r.insert home template)

/-- The first section that holds a name, with its template. -/
def find? (r : Registry) (name : String) : Option (Section × Style) :=
  Section.all.findSome? fun home => (r.get? home name).map (home, ·)

/-- The template that a name stands for. -/
def template? (r : Registry) (name : String) : Option Style := (r.find? name).map Prod.snd

/-- The section that answers for a name. -/
def home? (r : Registry) (name : String) : Option Section := (r.find? name).map Prod.fst

/-- The names in one section, in order. -/
def names (r : Registry) (home : Section) : List String :=
  (r.entries.filter (·.home = home)).map Entry.name

/-- The names that several sections hold, in order. -/
def shadowed (r : Registry) : List String :=
  let all := r.entries.map Entry.name
  (all.eraseDups.filter fun name => 1 < all.count name).mergeSort fun a b => a ≤ b

/-- The number of templates. -/
def length (r : Registry) : Nat := r.entries.length

def isEmpty (r : Registry) : Bool := r.entries.isEmpty

/-- The registry of the listed templates. -/
def ofList (templates : List (Section × Style)) : Registry :=
  templates.foldl (fun r t => r.insert t.1 t.2) empty

end Registry

end BladeStyle
