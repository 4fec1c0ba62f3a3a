import BladeStyle.Proofs.Style.Binding
import BladeStyle.Proofs.Style.Path
import BladeStyle.Style.Findings

/-!
# Where findings come from

A finding of a tree is an issue of the node at its path, so what holds of the issues of every
node holds of all findings.  A node whose slots are finished has no issues except references
beyond its parameters.  Findings do not depend on comments.
-/

namespace BladeStyle

namespace Param

variable {p : Param Style}

theorem emptyIssue?_of_sound (h : p.slot.Sound p.kind) :
  p.emptyIssue? = none
  := by
  rw [emptyIssue?]
  cases hslot : p.slot with
  | empty =>
    rw [hslot] at h
    cases h
  | number _ | bits _ | bool _ | child _ => rfl

theorem mismatchIssue?_of_sound (h : p.slot.Sound p.kind) :
  p.mismatchIssue? = none
  := by
  rw [mismatchIssue?, child?]
  cases hslot : p.slot with
  | child c =>
    rw [hslot] at h
    apply if_pos h
  | number _ | bits _ | bool _ | empty => rfl

end Param

namespace Style

/-! ### The node of a finding -/

theorem findingsAt_eq (s : Style) (path : Path) :
  s.findingsAt path
    = s.issues.map (⟨path, s.name, ·⟩) ++ findingsInParams s.params path 0
  := by
  cases s
  rfl

theorem exists_of_mem_findingsInParams {params : List (Param Style)} {path : Path} {index : Nat}
    {f : Finding} (h : f ∈ findingsInParams params path index) :
  ∃ (i : Nat) (p : Param Style) (c : Style), params[i]? = some p ∧ p.slot = .child c
    ∧ f ∈ c.findingsAt (path.child (index + i))
  := by
  induction params generalizing index with
  | nil => cases h
  | cons p params ih =>
    obtain ⟨name, kind, slot, comment⟩ := p
    rw [findingsInParams] at h
    rcases List.mem_append.mp h with hslot | hparams
    · cases slot with
      | child c => exact ⟨0, _, c, rfl, rfl, hslot⟩
      | number _ | bits _ | bool _ | empty => cases hslot
    · obtain ⟨i, p, c, hp, hc, hf⟩ := ih hparams
      rw [Nat.add_right_comm, Nat.add_assoc] at hf
      exact ⟨i + 1, p, c, hp, hc, hf⟩

/-- A finding of a tree is about the node at its path, and is one of the issues of this
node. -/
theorem exists_of_mem_findingsAt {s : Style} {path : Path} {f : Finding}
    (h : f ∈ s.findingsAt path) :
  ∃ rest n, f.path = path ++ rest ∧ s.at? rest = some n ∧ f.style = n.name ∧ f.issue ∈ n.issues
  := by
  induction s using Style.induction generalizing path with
  | step s ih =>
    rw [findingsAt_eq] at h
    rcases List.mem_append.mp h with hhere | hbelow
    · obtain ⟨issue, hissue, rfl⟩ := List.mem_map.mp hhere
      exact ⟨[], s, (List.append_nil path).symm, rfl, rfl, hissue⟩
    · obtain ⟨i, p, c, hp, hc, hf⟩ := exists_of_mem_findingsInParams hbelow
      obtain ⟨rest, n, hpath, hn, hstyle, hissue⟩ := ih p (List.mem_of_getElem? hp) c hc hf
      refine ⟨i :: rest, n, ?_, ?_, hstyle, hissue⟩
      · rw [hpath, Path.child, List.append_assoc, Nat.zero_add, List.singleton_append]
      · rw [at?, child?_eq_some.mpr ⟨p, hp, hc⟩, Option.bind_some, hn]

/-- What holds of the issues of every node holds of all findings. -/
theorem Everywhere.issue {P : Issue → Prop} {s : Style}
    (h : s.Everywhere fun n => ∀ issue ∈ n.issues, P issue) {f : Finding} (hf : f ∈ s.findings) :
  P f.issue
  := by
  obtain ⟨path, n, -, hn, -, hissue⟩ := exists_of_mem_findingsAt hf
  apply (h.at? hn).here f.issue hissue

/-- A node whose slots are finished has no issues except references. -/
theorem issues_of_sound {s : Style} (h : ∀ p ∈ s.params, p.slot.Sound p.kind) :
  s.issues = s.params.filterMap (Param.referenceIssue? s.params.length)
  := by
  have hempty : s.params.filterMap Param.emptyIssue? = [] := by
    apply List.filterMap_eq_nil_iff.mpr
    intro p hp
    apply Param.emptyIssue?_of_sound (h p hp)
  have hmismatch : s.params.filterMap Param.mismatchIssue? = [] := by
    apply List.filterMap_eq_nil_iff.mpr
    intro p hp
    apply Param.mismatchIssue?_of_sound (h p hp)
  rw [issues, hempty, hmismatch, List.nil_append, List.nil_append]

theorem severity_of_referenceIssue? {p : Param Style} {count : Nat} {issue : Issue}
    (h : p.referenceIssue? count = some issue) :
  issue.severity = .warning
  := by
  obtain ⟨index, -, hissue⟩ := Option.bind_eq_some_iff.mp h
  split at hissue
  · obtain rfl := Option.some.inj hissue
    rfl
  · cases hissue

/-! ### Comments -/

variable (f : String → String)

theorem issues_mapComments (s : Style) :
  (s.mapComments f).issues = s.issues
  := by
  have hempty : Param.emptyIssue? ∘ Param.mapComments f = Param.emptyIssue? := by
    funext p
    cases hslot : p.slot <;>
      simp [Param.emptyIssue?, Param.mapComments, hslot, Slot.map, Slot.isEmpty]
  have hmismatch : Param.mismatchIssue? ∘ Param.mapComments f = Param.mismatchIssue? := by
    funext p
    cases hslot : p.slot <;>
      simp [Param.mismatchIssue?, Param.mapComments, Param.child?, hslot, Slot.map, Slot.child?]
  have hreference (count : Nat) :
      Param.referenceIssue? count ∘ Param.mapComments f = Param.referenceIssue? count := rfl
  simp only [issues, params_mapComments, List.filterMap_map, List.length_map, hempty, hmismatch,
    hreference]

theorem findingsInParams_mapComments {params : List (Param Style)}
    (h : ∀ p ∈ params, ∀ c, p.slot = .child c →
      ∀ path, (c.mapComments f).findingsAt path = c.findingsAt path) (path : Path) (index : Nat) :
  findingsInParams (params.map (Param.mapComments f)) path index
    = findingsInParams params path index
  := by
  induction params generalizing index with
  | nil => rfl
  | cons p params ih =>
    obtain ⟨hp, hparams⟩ := List.forall_mem_cons.mp h
    obtain ⟨name, kind, slot, comment⟩ := p
    simp only [List.map_cons, Param.mapComments, findingsInParams, ih hparams]
    cases slot with
    | child c => simp only [Slot.map, findingsInSlot, hp c rfl]
    | number _ | bits _ | bool _ | empty => rfl

theorem findingsAt_mapComments (s : Style) (path : Path) :
  (s.mapComments f).findingsAt path = s.findingsAt path
  := by
  induction s using Style.induction generalizing path with
  | step s ih =>
    rw [findingsAt_eq, findingsAt_eq, issues_mapComments, name_mapComments, params_mapComments,
      findingsInParams_mapComments f fun p hp c hc path => ih p hp c hc path]

/-- The findings of a tree do not depend on its comments. -/
theorem findings_mapComments (s : Style) :
  (s.mapComments f).findings = s.findings
  := findingsAt_mapComments f s Path.root

end Style

end BladeStyle
