import BladeStyle.Proofs.Enumeration
import BladeStyle.Proofs.Style.Findings

/-!
# Findings and what they tell of

A finding tells of a parameter that breaks a rule, at the place that is made up of the path of
its node, the rule and the position of the parameter.  Such places are ordered by path, then by
rule and then by position; a path comes before those of the nodes below it.  The findings of a
tree are what there is to tell at all places, each once and in this order.
-/

namespace BladeStyle

/-! ### Rules -/

/-- The rules for parameters, in the order in which they are checked at a node. -/
inductive Rule where
  | filled
  | accepted
  | referring
  deriving DecidableEq

namespace Rule

def all : List Rule := [filled, accepted, referring]

/-- The place of a rule in the order of checking. -/
def position : Rule → Nat
  | filled => 0
  | accepted => 1
  | referring => 2

/-- The identifier under which a breach of the rule is reported. -/
def name : Rule → String
  | filled => "empty-parameter"
  | accepted => "category-mismatch"
  | referring => "dangling-reference"

/-- How bad a breach of the rule is. -/
def severity : Rule → Severity
  | filled | accepted => .error
  | referring => .warning

/-- Each rule stands in the list of all rules at its position. -/
theorem getElem?_all {n : Nat} {rule : Rule} (h : all[n]? = some rule) :
  rule.position = n
  := by
  match n with
  | 0 | 1 | 2 =>
    obtain rfl := Option.some.inj h
    rfl
  | n + 3 => cases h

/-- Every rule is one of all rules. -/
theorem position_lt (rule : Rule) :
  rule.position < all.length
  := by
  cases rule <;> decide

/-- No two rules have the same position. -/
theorem position_inj {rule rule' : Rule} (h : rule.position = rule'.position) :
  rule = rule'
  := by
  cases rule <;> cases rule' <;> first | rfl | cases h

end Rule

/-- A parameter of a node with `count` parameters that breaks a rule, and the issue that this
makes: a slot without a child, a child that is not accepted, or a reference to a parameter that
the node does not have. -/
inductive Breach (count : Nat) (p : Param Style) : Rule → Issue → Prop where
  | filled (h : p.slot = .empty) : Breach count p .filled (.emptyParam p.name)
  | accepted {c : Style} (hc : p.slot = .child c)
      (h : p.kind.categories.accepts c.category = false) :
      Breach count p .accepted (.categoryMismatch p.name p.kind.categories c.name c.category)
  | referring {index : Nat} (hindex : p.reference? = some index) (h : count < index) :
      Breach count p .referring (.danglingReference p.name index)

namespace Breach

variable {count : Nat} {p : Param Style} {rule : Rule} {issue : Issue}

theorem rule_eq (h : Breach count p rule issue) :
  issue.rule = rule.name
  := by
  cases h <;> rfl

theorem severity_eq (h : Breach count p rule issue) :
  issue.severity = rule.severity
  := by
  cases h <;> rfl

/-- An error tells of an empty slot or of a child that is not accepted. -/
theorem exists_error_iff (count : Nat) :
  (∃ rule issue, Breach count p rule issue ∧ rule.severity = .error)
    ↔ p.slot = .empty ∨ ∃ c, p.slot = .child c ∧ p.kind.categories.accepts c.category = false
  := by
  constructor
  · rintro ⟨rule, issue, h, hseverity⟩
    cases h with
    | filled h => exact Or.inl h
    | accepted hc h => exact Or.inr ⟨_, hc, h⟩
    | referring => cases hseverity
  · rintro (h | ⟨c, hc, h⟩)
    · exact ⟨_, _, filled h, rfl⟩
    · exact ⟨_, _, accepted hc h, rfl⟩

end Breach

/-- The issue of a parameter by one rule. -/
def Param.issue? (count : Nat) (rule : Rule) (p : Param Style) : Option Issue :=
  match rule with
  | .filled => p.emptyIssue?
  | .accepted => p.mismatchIssue?
  | .referring => p.referenceIssue? count

/-- A rule raises an issue about a parameter exactly if the parameter breaches it, and it
is that issue. -/
theorem Param.issue?_eq_some_iff {count : Nat} {rule : Rule} {p : Param Style} {issue : Issue} :
  p.issue? count rule = some issue ↔ Breach count p rule issue
  := by
  constructor
  · intro h
    cases rule with
    | filled =>
      simp only [issue?, emptyIssue?] at h
      cases hslot : p.slot with
      | empty =>
        rw [hslot] at h
        obtain rfl := Option.some.inj h
        exact .filled hslot
      | number _ | bits _ | bool _ | child _ =>
        rw [hslot] at h
        cases h
    | accepted =>
      obtain ⟨c, hc, h⟩ := Option.bind_eq_some_iff.mp h
      split at h
      · cases h
      · next haccepts =>
        obtain rfl := Option.some.inj h
        exact .accepted (Slot.child?_eq_some.mp hc) (eq_false_of_ne_true haccepts)
    | referring =>
      obtain ⟨index, hindex, h⟩ := Option.bind_eq_some_iff.mp h
      split at h
      · next hlt =>
        obtain rfl := Option.some.inj h
        exact .referring hindex hlt
      · cases h
  · intro h
    cases h with
    | filled h => rw [issue?, emptyIssue?, h, Slot.isEmpty, if_pos rfl]
    | accepted hc h => simp [issue?, mismatchIssue?, child?, hc, Slot.child?, h]
    | referring hindex h => rw [issue?, referenceIssue?, hindex, Option.bind_some, if_pos h]

/-! ### Places -/

/-- Where a finding stands: a node, a rule and the position of a parameter. -/
structure Place where
  path : Path
  rule : Rule
  index : Nat

namespace Place

/-- The order of findings: by node, a node before those below it, then by rule, then by
parameter. -/
def Before (a b : Place) : Prop :=
  a.path < b.path
    ∨ a.path = b.path
      ∧ (a.rule.position < b.rule.position ∨ a.rule = b.rule ∧ a.index < b.index)

/-- The same place in a tree above, of which parameter `i` leads on. -/
def below (i : Nat) (a : Place) : Place := { a with path := i :: a.path }

/-- The order of places does not depend on the node they are below. -/
theorem Before.below {a b : Place} (h : a.Before b) (i : Nat) :
  (a.below i).Before (b.below i)
  := by
  rcases h with hpath | ⟨hpath, h⟩
  · exact Or.inl (List.cons_lt_cons_iff.mpr (Or.inr ⟨rfl, hpath⟩))
  · exact Or.inr ⟨congrArg (i :: ·) hpath, h⟩

end Place

/-- The same finding in a tree above, of which parameter `i` leads on. -/
def Finding.below (i : Nat) (f : Finding) : Finding := { f with path := i :: f.path }

namespace Style

variable {s : Style}

/-- The finding at a place of a tree: the path leads to a node, of which the parameter at the
position breaks the rule, and the finding has the path and the name of this node. -/
def Reported (root : Style) (place : Place) (f : Finding) : Prop :=
  ∃ n p issue, root.at? place.path = some n ∧ n.params[place.index]? = some p
    ∧ Breach n.params.length p place.rule issue ∧ f = ⟨place.path, n.name, issue⟩

/-- What is reported below a child is what that child reports, with its index in front of
the path. -/
theorem reported_below_iff (i : Nat) (place : Place) {f : Finding} :
  s.Reported (place.below i) f ↔ ∃ c f', s.child? i = some c ∧ c.Reported place f' ∧ f'.below i = f
  := by
  constructor
  · rintro ⟨n, p, issue, hn, hp, h, rfl⟩
    obtain ⟨c, hc, hn⟩ := Option.bind_eq_some_iff.mp hn
    exact ⟨c, _, hc, ⟨n, p, issue, hn, hp, h, rfl⟩, rfl⟩
  · rintro ⟨c, f', hc, ⟨n, p, issue, hn, hp, h, rfl⟩, rfl⟩
    exact ⟨n, p, issue, Option.bind_eq_some_iff.mpr ⟨c, hc, hn⟩, hp, h, rfl⟩

/-! ### The findings of a node and those of its children -/

/-- The findings of a list of parameters are those of the slots, one after the other. -/
theorem findingsInParams_eq (params : List (Param Style)) (path : Path) (index : Nat) :
  findingsInParams params path index
    = (params.zipIdx index).flatMap fun a => findingsInSlot a.1.slot (path.child a.2)
  := by
  induction params generalizing index with
  | nil => rfl
  | cons p params ih =>
    rw [List.zipIdx_cons, List.flatMap_cons, ← ih]
    rfl

/-- The findings in a tree below parameter `i` of another one are those that it has by itself. -/
theorem findingsAt_cons (i : Nat) (s : Style) (path : Path) :
  s.findingsAt (i :: path) = (s.findingsAt path).map (Finding.below i)
  := by
  induction s using Style.induction generalizing path with
  | step s ih =>
    have hslot : ∀ a ∈ s.params.zipIdx, findingsInSlot a.1.slot (Path.child (i :: path) a.2)
        = (findingsInSlot a.1.slot (path.child a.2)).map (Finding.below i) := by
      rintro ⟨p, j⟩ ha
      have hp := List.mem_of_getElem? (List.mem_zipIdx_iff_getElem?.mp ha)
      dsimp only at hp ⊢
      cases hc : p.slot with
      | child c => apply ih p hp c hc
      | number _ | bits _ | bool _ | empty => rfl
    rw [findingsAt_eq, findingsAt_eq, findingsInParams_eq, findingsInParams_eq, List.map_append,
      List.map_map, List.map_flatMap, List.flatMap_congr hslot]
    rfl

/-- The findings of a node are its own issues and then those of its children, in order. -/
theorem findings_eq (s : Style) :
  s.findings
    = s.issues.map (⟨Path.root, s.name, ·⟩)
      ++ s.params.zipIdx.flatMap fun a =>
        (findingsInSlot a.1.slot Path.root).map (Finding.below a.2)
  := by
  rw [findings, findingsAt_eq, findingsInParams_eq]
  congr 2
  funext a
  cases a.1.slot with
  | child c => apply findingsAt_cons
  | number _ | bits _ | bool _ | empty => rfl

/-- The issues of a node rule by rule. -/
theorem issues_eq (s : Style) :
  s.issues
    = (Rule.all.map fun rule => s.params.filterMap (Param.issue? s.params.length rule)).flatten
  := by
  rw [issues, List.append_assoc, ← List.append_nil (s.params.filterMap (Param.referenceIssue? _))]
  rfl

/-! ### All findings -/

/-- The findings of a node without those of its children. -/
theorem enumerates_issues (s : Style) :
  Enumerates Place.Before (fun place f => place.path = Path.root ∧ s.Reported place f)
    (s.issues.map (⟨Path.root, s.name, ·⟩))
  := by
  rw [issues_eq, List.map_flatten, List.map_map]
  apply (Enumerates.flatten (P := fun n place f =>
    place.path = Path.root ∧ s.Reported place f ∧ place.rule.position = n) _ _).congr
  · rintro ⟨path, rule, index⟩ f
    have hlt := rule.position_lt
    rw [List.length_map]
    constructor
    · rintro ⟨n, -, hpath, hf, -⟩
      exact ⟨hpath, hf⟩
    · rintro ⟨hpath, hf⟩
      exact ⟨_, hlt, hpath, hf, rfl⟩
  · intro n list hlist
    rw [List.getElem?_map] at hlist
    obtain ⟨rule, hrule, rfl⟩ := Option.map_eq_some_iff.mp hlist
    have hposition := Rule.getElem?_all hrule
    have hplaces := Enumerates.filterMap (Param.issue? s.params.length rule) s.params
    apply (hplaces.map (fun i => ⟨Path.root, rule, i⟩) _ _).congr
    · rintro ⟨path, rule', index⟩ f
      constructor
      · rintro ⟨i, issue, ⟨p, hp, h⟩, hplace, rfl⟩
        obtain ⟨rfl, rfl, rfl⟩ := Place.mk.inj hplace
        exact ⟨rfl, ⟨s, p, issue, rfl, hp, Param.issue?_eq_some_iff.mp h, rfl⟩, hposition⟩
      · rintro ⟨rfl, ⟨node, p, issue, hnode, hp, h, rfl⟩, hposition'⟩
        obtain rfl := Option.some.inj hnode
        obtain rfl := Rule.position_inj (hposition.trans hposition'.symm)
        exact ⟨index, issue, ⟨p, hp, Param.issue?_eq_some_iff.mpr h⟩, rfl, rfl⟩
    · intro i j hij
      exact Or.inr ⟨rfl, Or.inr ⟨rfl, hij⟩⟩
  · rintro m n a f b g hmn ⟨ha, -, rfl⟩ ⟨hb, -, rfl⟩
    exact Or.inr ⟨ha.trans hb.symm, Or.inl hmn⟩

/-- A finding below parameter `i` of a node. -/
def ReportedBelow (s : Style) (i : Nat) (place : Place) (f : Finding) : Prop :=
  ∃ c, s.child? i = some c ∧ ∃ place' f', c.Reported place' f' ∧ place'.below i = place
    ∧ f'.below i = f

/-- What is reported is reported about the node itself or below one of its children. -/
theorem reported_iff {place : Place} {f : Finding} :
  s.Reported place f
    ↔ place.path = Path.root ∧ s.Reported place f
      ∨ ∃ i < s.params.length, s.ReportedBelow i place f
  := by
  constructor
  · intro h
    obtain ⟨path, rule, index⟩ := place
    cases path with
    | nil => exact Or.inl ⟨rfl, h⟩
    | cons i path =>
      right
      obtain ⟨c, f', hc, hf, rfl⟩ := (reported_below_iff i ⟨path, rule, index⟩).mp h
      obtain ⟨p, hp, -⟩ := child?_eq_some.mp hc
      obtain ⟨hlt, -⟩ := List.getElem?_eq_some_iff.mp hp
      exact ⟨i, hlt, c, hc, _, f', hf, rfl, rfl⟩
  · rintro (⟨-, h⟩ | ⟨i, -, c, hc, place', f', hf, rfl, rfl⟩)
    · exact h
    · apply (reported_below_iff i place').mpr
      exact ⟨c, f', hc, hf, rfl⟩

/-- The findings of a child tell what is reported below it if the findings of that child
by itself do. -/
theorem enumerates_below {i : Nat} {p : Param Style} (hp : s.params[i]? = some p)
    (h : ∀ c, p.slot = .child c → Enumerates Place.Before c.Reported c.findings) :
  Enumerates Place.Before (s.ReportedBelow i)
    ((findingsInSlot p.slot Path.root).map (Finding.below i))
  := by
  cases hc : p.slot with
  | child c =>
    have hchild : s.child? i = some c := child?_eq_some.mpr ⟨p, hp, hc⟩
    apply ((h c hc).map (Place.below i) (Finding.below i) fun a b hab => hab.below i).congr
    intro place f
    simp only [ReportedBelow, hchild, Option.some_inj, exists_eq_left']
  | number _ | bits _ | bool _ | empty =>
    apply Enumerates.nil
    rintro place f ⟨c, hchild, -⟩
    obtain ⟨q, hq, hslot⟩ := child?_eq_some.mp hchild
    obtain rfl := Option.some.inj (hp.symm.trans hq)
    rw [hc] at hslot
    cases hslot

/-- A tree has a finding for every breach of a rule, each once and in the order of their places;
by induction on the tree. -/
theorem enumerates_findings (s : Style) :
  Enumerates Place.Before s.Reported s.findings
  := by
  induction s using Style.induction with
  | step s ih =>
    rw [findings_eq, List.flatMap_def]
    apply ((enumerates_issues s).append (Enumerates.flatten (P := s.ReportedBelow) _ _) _).congr
    · intro place f
      rw [List.length_map, List.length_zipIdx]
      exact reported_iff.symm
    · intro i list hlist
      rw [List.getElem?_map, List.getElem?_zipIdx, Option.map_map, Nat.zero_add] at hlist
      obtain ⟨p, hp, rfl⟩ := Option.map_eq_some_iff.mp hlist
      apply enumerates_below hp (ih p (List.mem_of_getElem? hp))
    · rintro i j place f place' f' hij ⟨-, -, a, -, -, rfl, -⟩ ⟨-, -, b, -, -, rfl, -⟩
      exact Or.inl (List.cons_lt_cons_iff.mpr (Or.inl hij))
    · rintro ⟨path, rule, index⟩ f place' f' ⟨rfl, -⟩ ⟨i, -, -, -, b, -, -, rfl, -⟩
      exact Or.inl (List.nil_lt_cons i b.path)

/-- The findings of a tree are exact.  There is one for every empty slot, for every child that its
slot does not accept and for every reference beyond the parameters of the node, and no other.
Its path leads to the node of the parameter, and its name is that of the node.  Findings come in
the order of their nodes from the root down and from left to right, at a node rule by rule, and by
a rule from the first parameter to the last.  Some finding is an error exactly if some slot is
empty or holds a child that it does not accept. -/
theorem findings_tell_all_breaches (root : Style) :
  Enumerates Place.Before root.Reported root.findings
    ∧ (∀ place f, root.Reported place f →
      f.rule = place.rule.name ∧ f.severity = place.rule.severity)
    ∧ (anyError root.findings = true
      ↔ ∃ path n p, root.at? path = some n ∧ p ∈ n.params
        ∧ (p.slot = .empty
          ∨ ∃ c, p.slot = .child c ∧ p.kind.categories.accepts c.category = false))
  := by
  have hfindings := enumerates_findings root
  have hrule : ∀ place f, root.Reported place f →
      f.rule = place.rule.name ∧ f.severity = place.rule.severity := by
    rintro place f ⟨n, p, issue, -, -, h, rfl⟩
    exact ⟨h.rule_eq, h.severity_eq⟩
  refine ⟨hfindings, hrule, ?_⟩
  rw [anyError, List.any_eq_true]
  constructor
  · rintro ⟨f, hf, hseverity⟩
    obtain ⟨place, n, p, issue, hn, hp, h, rfl⟩ := hfindings.mem_iff.mp hf
    have herror : place.rule.severity = .error := by
      rw [← h.severity_eq]
      exact of_decide_eq_true hseverity
    exact ⟨place.path, n, p, hn, List.mem_of_getElem? hp,
      (Breach.exists_error_iff _).mp ⟨place.rule, issue, h, herror⟩⟩
  · rintro ⟨path, n, p, hn, hp, hslot⟩
    obtain ⟨index, hindex⟩ := List.mem_iff_getElem?.mp hp
    obtain ⟨rule, issue, h, herror⟩ := (Breach.exists_error_iff n.params.length).mpr hslot
    refine ⟨⟨path, n.name, issue⟩, hfindings.mem_iff.mpr ?_, ?_⟩
    · exact ⟨⟨path, rule, index⟩, n, p, issue, hn, hindex, h, rfl⟩
    · exact decide_eq_true (h.severity_eq.trans herror)

/-- A function whose empty parameter refers to a third one. -/
def danglingDim : Style :=
  .ofParams "Dim" "Dim" .function [(Param.ofStyle "Value" (.ofList [.function]) none).referringTo 3]

/-- A mix of a function, where a colour belongs, and of nothing. -/
def unevenMix : Style :=
  .ofParams "Mix" "Mix" .color
    [Param.ofStyle "Base" (.ofList [.color]) (some danglingDim),
      Param.ofStyle "Other" (.ofList [.color]) none]

theorem findings_tell_all_breaches_unevenMix :
  unevenMix.findings.map (fun f => (f.path, f.style, f.rule))
      = [([], "Mix", "empty-parameter"), ([], "Mix", "category-mismatch"),
        ([0], "Dim", "empty-parameter"), ([0], "Dim", "dangling-reference")]
    ∧ anyError unevenMix.findings = true
    ∧ unevenMix.Reported ⟨[0], .referring, 0⟩ ⟨[0], "Dim", .danglingReference "Value" 3⟩
    ∧ (⟨[0], "Dim", .danglingReference "Value" 3⟩ : Finding).rule = "dangling-reference"
    ∧ (⟨[0], "Dim", .danglingReference "Value" 3⟩ : Finding).severity = .warning
  := by
  obtain ⟨-, hrule, herror⟩ := findings_tell_all_breaches unevenMix
  have hreported : unevenMix.Reported ⟨[0], .referring, 0⟩
      ⟨[0], "Dim", .danglingReference "Value" 3⟩ :=
    ⟨danglingDim, _, _, rfl, rfl, .referring rfl (by decide), rfl⟩
  refine ⟨by decide +kernel, herror.mpr ?_, hreported, hrule _ _ hreported⟩
  exact ⟨[], unevenMix, _, rfl, List.mem_cons_of_mem _ List.mem_cons_self, Or.inl rfl⟩

end Style

end BladeStyle
