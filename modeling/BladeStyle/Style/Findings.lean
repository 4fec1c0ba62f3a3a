import BladeStyle.Style.Path

/-!
# Findings

What is wrong with a tree: slots without a child, children that their slot does not
accept, and references to a parameter that the node does not have.  The first two are
errors, the last is a warning.  Findings come node by node, a node before its children,
and at a node in the order of this list.
-/

namespace BladeStyle

/-- How bad a finding is. -/
inductive Severity where
  | error
  | warning
  deriving DecidableEq

/-- What can be wrong at a node. -/
inductive Issue where
  | emptyParam (param : String)
  | categoryMismatch (param : String) (accepts : CategorySet) (child : String)
      (found : Category)
  | danglingReference (param : String) (reference : Nat)
  deriving DecidableEq

namespace Issue

def severity : Issue → Severity
  | emptyParam _ | categoryMismatch .. => .error
  | danglingReference .. => .warning

/-- The identifier of the rule that is broken. -/
def rule : Issue → String
  | emptyParam _ => "empty-parameter"
  | categoryMismatch .. => "category-mismatch"
  | danglingReference .. => "dangling-reference"

/-- What is wrong at the node `style`. -/
def message (style : String) : Issue → String
  | emptyParam param => s!"Parameter `{param}` of `{style}` is empty."
  | categoryMismatch param accepts child found =>
    s!"`{child}` is a {found.name} but parameter `{param}` of `{style}` accepts {accepts.display}."
  | danglingReference param reference =>
    s!"Parameter `{param}` of `{style}` refers to parameter {reference}, which does not exist."

end Issue

/-- An issue with the place and the name of the node. -/
structure Finding where
  path : Path
  style : String
  issue : Issue
  deriving DecidableEq

namespace Finding

def severity (f : Finding) : Severity := f.issue.severity

def rule (f : Finding) : String := f.issue.rule

def message (f : Finding) : String := f.issue.message f.style

end Finding

namespace Param

/-- The issue of a slot without a child. -/
def emptyIssue? (p : Param Style) : Option Issue :=
  if p.slot.isEmpty then some (.emptyParam p.name) else none

/-- The issue of a child that the slot does not accept. -/
def mismatchIssue? (p : Param Style) : Option Issue :=
  p.child?.bind fun c =>
    if p.kind.categories.accepts c.category then none
    else some (.categoryMismatch p.name p.kind.categories c.name c.category)

/-- The issue of a reference beyond the `count` parameters of a node. -/
def referenceIssue? (count : Nat) (p : Param Style) : Option Issue :=
  p.reference?.bind fun index =>
    if count < index then some (.danglingReference p.name index) else none

end Param

namespace Style

/-- The issues of a node without those of its children. -/
def issues (s : Style) : List Issue :=
  s.params.filterMap Param.emptyIssue? ++ s.params.filterMap Param.mismatchIssue?
    ++ s.params.filterMap (Param.referenceIssue? s.params.length)

mutual

/-- The findings in the tree whose root is at `path`. -/
def findingsAt (s : Style) (path : Path) : List Finding :=
  match s with
  | ⟨name, title, category, fixedForm, params, declared, comment⟩ =>
    (issues ⟨name, title, category, fixedForm, params, declared, comment⟩).map (⟨path, name, ·⟩)
      ++ findingsInParams params path 0

/-- The findings in the children of the node at `path`, from parameter `index` on. -/
def findingsInParams (params : List (Param Style)) (path : Path) (index : Nat) :
    List Finding :=
  match params with
  | [] => []
  | ⟨_, _, slot, _⟩ :: params =>
    findingsInSlot slot (path.child index) ++ findingsInParams params path (index + 1)

/-- The findings in the child of a slot, which is at `path`. -/
def findingsInSlot (slot : Slot Style) (path : Path) : List Finding :=
  match slot with
  | .child s => findingsAt s path
  | _ => []

end

/-- All findings in a tree. -/
def findings (s : Style) : List Finding := s.findingsAt Path.root

end Style

/-- Whether some finding is an error. -/
def anyError (fs : List Finding) : Bool := fs.any (·.severity = .error)

end BladeStyle
