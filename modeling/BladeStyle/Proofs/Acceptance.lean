import BladeStyle.Proofs.Formatting
import BladeStyle.Proofs.Parsing.Proper

/-!
# What parsing accepts

Whatever the registry, every node of a parsed tree has the shape of its template, every slot
is finished, the tree is no higher than the parser follows, and no finding is an error.  The
built-in templates refer only to parameters that they declare, so a tree that is parsed with
them has no findings at all.  Hence a text can be formatted exactly if it can be parsed.
-/

namespace BladeStyle

/-! ### Finished trees -/

namespace Style

variable {r : Registry} {s : Style}

/-- A node with the shape of its template in which every slot is finished. -/
structure FinishedNode (r : Registry) (s : Style) : Prop where
  shape : ∃ template, r.template? s.name = some template ∧ HasShape template s
  slots : ∀ p ∈ s.params, p.slot.Sound p.kind

/-- The only issues of a finished node are references beyond its parameters. -/
theorem FinishedNode.severity (h : FinishedNode r s) :
  ∀ issue ∈ s.issues, issue.severity = .warning
  := by
  intro issue hissue
  rw [issues_of_sound h.slots] at hissue
  obtain ⟨p, -, hp⟩ := List.mem_filterMap.mp hissue
  apply severity_of_referenceIssue? hp

theorem anyError_findings (h : s.Everywhere (FinishedNode r)) :
  anyError s.findings = false
  := by
  rw [anyError, List.any_eq_false]
  intro f hf
  have hwarning : f.issue.severity = .warning :=
    Everywhere.issue (h.imp fun _ => FinishedNode.severity) hf
  rw [Finding.severity, hwarning]
  decide

end Style

namespace Registry

variable {r : Registry}

/-- Parsing accepts only finished trees, and none higher than the levels that are allowed; by
induction on their number. -/
theorem finished_of_parseWithin {levels : Nat} {source : Source} {t : Style}
    (h : r.parseWithin levels source = .ok t) :
  t.Everywhere (Style.FinishedNode r) ∧ t.height < levels
  := by
  induction levels generalizing source t with
  | zero => cases h
  | succ levels ih =>
    rw [parseWithin] at h
    split at h
    · cases h
    · obtain ⟨template, ht, hshape, -, hread⟩ := exists_template_of_parseNode h
      have hparam : ∀ p ∈ t.params, p.slot.Sound p.kind
          ∧ ∀ c, p.slot = .child c → c.Everywhere (Style.FinishedNode r) ∧ c.height < levels := by
        intro p hp
        obtain ⟨i, slot, -, argument, hslot⟩ := hread p hp
        obtain ⟨hsound, hchild⟩ := Param.sound_of_read hslot
        use hsound
        intro c hc
        apply ih (hchild c hc)
      constructor
      · apply Style.Everywhere.node
        · use ⟨template, ht, hshape⟩
          exact fun p hp => (hparam p hp).1
        · exact fun p hp c hc => ((hparam p hp).2 c hc).1
      · apply Style.height_lt_succ_iff.mpr
        exact fun p hp c hc => ((hparam p hp).2 c hc).2

theorem finished_of_parse {text : String} {t : Style} (h : r.parse text = .ok t) :
  t.Everywhere (Style.FinishedNode r) ∧ t.height ≤ levelLimit
  := by
  rw [parse] at h
  split at h
  · cases h
  · obtain ⟨hfinished, hheight⟩ := finished_of_parseWithin h
    exact ⟨hfinished, Nat.le_of_lt_succ hheight⟩

end Registry

/-! ### References -/

namespace Param

theorem SameSlot.referenceIssue? {p q : Param Style} (h : SameSlot p q) (count : Nat) :
  p.referenceIssue? count = q.referenceIssue? count
  := by
  rw [Param.referenceIssue?, Param.referenceIssue?, Param.reference?, Param.reference?, h.name,
    h.kind]

/-- A reference to one of the parameters of a node stays one if there are more of them. -/
theorem referenceIssue?_of_le {p : Param Style} {count count' : Nat} (hle : count ≤ count')
    (h : p.referenceIssue? count = none) :
  p.referenceIssue? count' = none
  := by
  rw [referenceIssue?, Option.bind_eq_none_iff] at h ⊢
  intro index hindex
  have hnone := h index hindex
  split at hnone
  · cases hnone
  · next hlt => apply if_neg (by omega)

end Param

namespace Registry

/-- The parameters of every template refer only to parameters that it declares. -/
def RefersWithin (r : Registry) : Prop :=
  ∀ e ∈ r.entries, ∀ p ∈ e.template.params, p.referenceIssue? e.template.params.length = none

theorem refersWithin_builtin :
  builtin.RefersWithin
  := by
  apply forall_mem_builtin (P := fun template =>
    ∀ p ∈ template.params, p.referenceIssue? template.params.length = none)
  decide +kernel

end Registry

namespace Style

theorem FinishedNode.issues_eq_nil {r : Registry} {s : Style} (hr : r.RefersWithin)
    (h : FinishedNode r s) :
  s.issues = []
  := by
  obtain ⟨template, ht, hshape⟩ := h.shape
  obtain ⟨e, he, rfl, -⟩ := Registry.mem_of_template? ht
  rw [issues_of_sound h.slots, List.filterMap_eq_nil_iff]
  intro p hp
  obtain ⟨i, hi⟩ := List.mem_iff_getElem?.mp hp
  obtain ⟨j, q, hq, hsame, -⟩ := hshape.exists_of_getElem? hi
  rw [hsame.referenceIssue?]
  apply Param.referenceIssue?_of_le hshape.length_le (hr e he q (List.mem_of_getElem? hq))

theorem findings_eq_nil {r : Registry} {s : Style} (hr : r.RefersWithin)
    (h : s.Everywhere (FinishedNode r)) :
  s.findings = []
  := by
  have hissues : s.Everywhere fun n => ∀ issue ∈ n.issues, False := by
    apply h.imp
    intro n hn issue hissue
    rw [hn.issues_eq_nil hr] at hissue
    cases hissue
  apply List.eq_nil_iff_forall_not_mem.mpr
  intro f hf
  exact Everywhere.issue hissues hf

/-- A style that is parsed with the built-in registry has no findings. -/
theorem findings_of_parse {text : String} {t : Style} (h : parse text = .ok t) :
  t.findings = []
  := findings_eq_nil Registry.refersWithin_builtin (Registry.finished_of_parse h).1

/-- A style that is parsed with the built-in registry is well formed. -/
theorem wellFormed_of_parse {text : String} {t : Style} (h : parse text = .ok t) :
  t.WellFormed Registry.builtin
  := (Registry.parsed_of_parse Registry.regular_builtin.uncommented h).wellFormed

end Style

/-! ### Formatting -/

/-- A text that can be parsed is formatted to the text of the tree that is selected. -/
theorem exists_format_of_parse {text : String} {t : Style} (h : Style.parse text = .ok t)
    (options : FormatOptions) :
  ∃ out, (options.select t).text options.layout = .ok out ∧ format text options = .ok out
  := by
  have hwellFormed : (options.select t).WellFormed Registry.builtin := by
    rw [FormatOptions.select]
    split
    · apply Style.wellFormed_of_parse h
    · apply (Style.wellFormed_of_parse h).withoutComments
  have hfindings : (options.select t).findings = [] := by
    rw [FormatOptions.select]
    split
    · apply Style.findings_of_parse h
    · rw [Style.withoutComments, Style.findings_mapComments, Style.findings_of_parse h]
  obtain ⟨out, hout, -⟩ :=
    Registry.exists_text Registry.regular_builtin hwellFormed options.layout
  use out, hout
  rw [format, h]
  change (options.select t).format options = .ok out
  rw [Style.format, hfindings, hout]
  exact if_neg fun hrefused => Bool.false_ne_true hrefused.2

theorem format_of_parse_eq_error {text : String} {error : ParseError}
    (h : Style.parse text = .error error) (options : FormatOptions) :
  format text options = .error (.parse error)
  := by
  rw [format, h]

/-- Everything that parsing accepts is finished: nodes have the shape of their templates,
slots are filled with what they accept, the tree is at most 64 steps high and has no errors.
With the built-in registry there are no findings, and a text can be formatted exactly if it
can be parsed, whether completeness is required or not. -/
theorem accepted_texts_are_finished :
  (∀ (r : Registry) (text : String) (t : Style), r.parse text = .ok t →
      t.Everywhere (Style.FinishedNode r) ∧ t.height ≤ 64 ∧ anyError t.findings = false)
    ∧ (∀ (text : String) (t : Style), Style.parse text = .ok t → t.findings = [])
    ∧ ∀ (text : String) (options : FormatOptions),
      (∀ t, Style.parse text = .ok t → ∃ out, format text options = .ok out)
        ∧ (∀ error, Style.parse text = .error error → format text options = .error (.parse error))
        ∧ ∀ requireComplete, format text { options with requireComplete } = format text options
  := by
  refine ⟨?_, fun _ _ => Style.findings_of_parse, ?_⟩
  · intro r text t h
    obtain ⟨hfinished, hheight⟩ := Registry.finished_of_parse h
    exact ⟨hfinished, hheight, Style.anyError_findings hfinished⟩
  · intro text options
    refine ⟨?_, fun _ h => format_of_parse_eq_error h options, ?_⟩
    · intro t h
      obtain ⟨out, -, hformat⟩ := exists_format_of_parse h options
      use out
    · intro requireComplete
      cases h : Style.parse text with
      | error error => rw [format_of_parse_eq_error h, format_of_parse_eq_error h]
      | ok t =>
        obtain ⟨out, hout, hformat⟩ := exists_format_of_parse h options
        obtain ⟨out', hout', hformat'⟩ := exists_format_of_parse h { options with requireComplete }
        have hsame : out' = out := Except.ok.inj (hout'.symm.trans hout)
        rw [hformat, hformat', hsame]

/-- A function whose only parameter refers to a third one. -/
def dimFunction : Style :=
  .ofParams "Dim" "Dim" .function [(Param.ofNumber "Value" 0).referringTo 3]

/-- A colour of any number of functions, with a comment in its declaration. -/
def stripColor : Style :=
  .ofParams "Strip" "Strip" .color
    [{ (Param.ofStyle "Part" (.ofList [.function]) none).asVariadic with comment := "parts" }]

def stripRegistry : Registry := .ofList [(.function, dimFunction), (.color, stripColor)]

theorem accepted_texts_are_finished_strip :
  ∃ t, stripRegistry.parse "Strip<Dim<70000>, /* low */ Dim<-0x10>>" = .ok t
    ∧ t.findings.map Finding.rule = ["dangling-reference", "dangling-reference"]
    ∧ t.Everywhere (Style.FinishedNode stripRegistry) ∧ t.height ≤ 64 ∧ anyError t.findings = false
    ∧ ∃ out, format "Scale<Sum<Int<1>, Int<2>>, Int<0>, Int<9>>" {} = .ok out
  := by
  obtain ⟨hfinished, -, hformat⟩ := accepted_texts_are_finished
  have hparse : (stripRegistry.parse "Strip<Dim<70000>, /* low */ Dim<-0x10>>").toOption.map
      (fun t => t.findings.map Finding.rule)
      = some ["dangling-reference", "dangling-reference"] := by
    decide +kernel
  have hscale : (Style.parse "Scale<Sum<Int<1>, Int<2>>, Int<0>, Int<9>>").toOption.map
      (fun _ => ()) = some () := by
    decide +kernel
  obtain ⟨t, ht, hrules⟩ := exists_of_map_toOption_eq_some hparse
  obtain ⟨u, hu, -⟩ := exists_of_map_toOption_eq_some hscale
  obtain ⟨hnodes, hheight, herrors⟩ := hfinished stripRegistry _ t ht
  exact ⟨t, ht, hrules, hnodes, hheight, herrors, (hformat _ {}).1 u hu⟩

end BladeStyle
