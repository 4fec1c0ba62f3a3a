import BladeStyle.Proofs.Source.Reading
import BladeStyle.Proofs.Text.Tidy
import BladeStyle.Style.Layout

/-!
# Comments as they are written

On the way out a comment loses its closing markers, is put on one line in the compact
layout, and is indented with the node it belongs to.  `Layout.kept` is what is read back of
it.  A comment that was read before is written as before: for a tidy comment, writing what
is kept of it gives the same text.
-/

namespace BladeStyle.Layout

open Comment Text

/-- What is read back of a comment written in a layout. -/
def kept (layout : Layout) (comment : String) : String :=
  match layout with
  | multiline => String.ofList (tidy (unclosing comment.toList))
  | compact => String.ofList (trim (flat (unclosing comment.toList)))

/-! ### Breaking up closing markers -/

@[simp]
theorem head?_unclosing (cs : List Char) :
  (unclosing cs).head? = cs.head?
  := by
  fun_cases unclosing cs <;> simp

@[simp]
theorem getLast?_unclosing (cs : List Char) :
  (unclosing cs).getLast? = cs.getLast?
  := by
  fun_induction unclosing cs with
  | case1 => rfl
  | case2 cs ih => simp [List.getLast?_cons, ih]
  | case3 c cs h ih => simp [List.getLast?_cons, ih]

/-- No comment becomes empty, and none comes from nothing, when its closing markers are
broken up. -/
@[simp]
theorem unclosing_eq_nil {cs : List Char} :
  unclosing cs = [] ↔ cs = []
  := by
  fun_cases unclosing cs <;> simp

/-- With its closing markers broken up a comment cannot end early. -/
theorem unclosed_unclosing (cs : List Char) :
  Unclosed (unclosing cs)
  := by
  fun_induction unclosing cs with
  | case1 => apply List.isChain_nil
  | case2 cs ih =>
    apply List.IsChain.cons_cons (by decide)
    apply List.IsChain.cons_cons (by decide)
    apply List.IsChain.cons ih
    rintro d - ⟨h, -⟩
    exact absurd h (by decide)
  | case3 c cs h ih =>
    apply List.IsChain.cons ih
    rintro d hd ⟨rfl, rfl⟩
    rw [head?_unclosing] at hd
    obtain ⟨ds, rfl⟩ : ∃ ds, cs = '/' :: ds := by
      cases cs <;> simp_all
    exact h ds rfl rfl

/-- A comment without closing markers is written as it is. -/
theorem unclosing_eq_self {cs : List Char} (h : Unclosed cs) :
  unclosing cs = cs
  := by
  fun_induction unclosing cs with
  | case1 => rfl
  | case2 cs ih =>
    have hmarker := (List.isChain_cons_cons.mp h).1
    simp at hmarker
  | case3 c cs _ ih => rw [ih (List.isChain_cons.mp h).2]

/-- Neighbours in the text stay neighbours or get a space between them. -/
theorem isChain_unclosing {R : Char → Char → Prop} {cs : List Char} (h : cs.IsChain R)
    (hl : R '*' ' ') (hr : R ' ' '/') :
  (unclosing cs).IsChain R
  := by
  fun_induction unclosing cs with
  | case1 => apply List.isChain_nil
  | case2 cs ih =>
    obtain ⟨hs, hcs⟩ := List.isChain_cons.mp (List.isChain_cons.mp h).2
    apply List.IsChain.cons_cons hl
    apply List.IsChain.cons_cons hr
    apply List.IsChain.cons (ih hcs)
    rwa [head?_unclosing]
  | case3 c cs _ ih =>
    obtain ⟨hc, hcs⟩ := List.isChain_cons.mp h
    apply List.IsChain.cons (ih hcs)
    rwa [head?_unclosing]

/-- A closing marker is broken up within its line, so that a tidy comment stays tidy. -/
theorem isTidy_unclosing {cs : List Char} (h : IsTidy cs) :
  IsTidy (unclosing cs)
  := by
  constructor
  · constructor
    · simpa using h.trimmed.head
    · simpa using h.trimmed.last
  · apply isChain_unclosing h.flush
    · constructor <;> decide
    · constructor <;> decide

/-! ### One line -/

/-- A comment that was put on one line has no line feed. -/
theorem lineFeed_not_mem_flat (cs : List Char) :
  '\n' ∉ flat cs
  := by
  intro h
  obtain ⟨c, -, hc⟩ := List.mem_map.mp h
  split at hc
  · cases hc
  · contradiction

/-- A space in place of a line feed closes no comment. -/
theorem unclosed_flat {cs : List Char} (h : Unclosed cs) :
  Unclosed (flat cs)
  := by
  apply (List.isChain_map _).mpr
  apply List.IsChain.imp _ h
  intro c d hcd
  split <;> split <;> simp_all

/-- A comment without line feeds is on one line already. -/
theorem flat_eq_self {cs : List Char} (h : '\n' ∉ cs) :
  flat cs = cs
  := by
  apply Eq.trans _ (List.map_id _)
  apply List.map_congr_left
  intro c hc
  have hne : c ≠ '\n' := by
    rintro rfl
    exact h hc
  simp [hne]

/-- The ends of a trimmed comment are not line feeds, so that it stays trimmed on one
line. -/
theorem trimmed_flat {cs : List Char} (h : Trimmed cs) :
  Trimmed (flat cs)
  := by
  have key : ∀ o : Option Char, (∀ c ∈ o, isWhiteSpace c = false) →
      ∀ c ∈ o.map (fun c => if c = '\n' then ' ' else c), isWhiteSpace c = false := by
    intro o ho c hc
    obtain ⟨d, hd, rfl⟩ := Option.map_eq_some_iff.mp hc
    have hw := ho d hd
    have hne : d ≠ '\n' := by
      rintro rfl
      cases hw
    simpa [hne] using hw
  constructor
  · rw [flat, List.head?_map]
    apply key _ h.head
  · rw [flat, List.getLast?_map]
    apply key _ h.last

/-! ### Indentation -/

@[simp]
theorem indented_nil :
  indented [] = []
  := rfl

@[simp]
theorem indented_append (cs ds : List Char) :
  indented (cs ++ ds) = indented cs ++ indented ds
  := by
  simp [indented]

theorem indented_cons (c : Char) (cs : List Char) :
  indented (c :: cs) = (if c = '\n' then ['\n', '\t'] else [c]) ++ indented cs
  := rfl

/-- A tab after a line feed closes no comment. -/
theorem unclosed_indented {cs : List Char} (h : Unclosed cs) :
  Unclosed (indented cs)
  := by
  have head : ∀ ds : List Char, (indented ds).head? = ds.head? := by
    intro ds
    cases ds with
    | nil => rfl
    | cons d ds =>
      rw [indented_cons]
      split <;> simp_all
  induction cs with
  | nil => apply List.isChain_nil
  | cons c cs ih =>
    obtain ⟨hc, hcs⟩ := List.isChain_cons.mp h
    rw [indented_cons]
    split
    · apply List.IsChain.cons_cons (by decide)
      apply List.IsChain.cons (ih hcs)
      rintro d - ⟨h, -⟩
      exact absurd h (by decide)
    · apply List.IsChain.cons (ih hcs)
      rwa [head]

/-- Tabs at the start of lines are trimmed off. -/
theorem lines_indented (cs : List Char) :
  ∃ l ls, lines cs = l :: ls ∧ lines (indented cs) = l :: ls.map ('\t' :: ·)
  := by
  induction cs with
  | nil =>
    use [], []
    simp
  | cons c cs ih =>
    obtain ⟨l, ls, e, e'⟩ := ih
    rw [indented_cons]
    by_cases hc : c = '\n'
    · subst hc
      obtain ⟨m, ms, f, f'⟩ := exists_lines_cons (c := '\t') (by decide) (indented cs)
      use [], l :: ls
      simp_all
    · obtain ⟨m, ms, f, f'⟩ := exists_lines_cons hc cs
      obtain ⟨n, ns, g, g'⟩ := exists_lines_cons hc (indented cs)
      use c :: l, ls
      simp_all

/-- Indentation is lost when a comment is tidied. -/
theorem tidy_indented (cs : List Char) :
  tidy (indented cs) = tidy cs
  := by
  obtain ⟨l, ls, e, e'⟩ := lines_indented cs
  have htab : ∀ m, trim ('\t' :: m) = trim m := trim_cons_white (by decide)
  simp [tidy, e, e', Function.comp_def, htab]

/-! ### Writing what was kept -/

/-- A comment as it stands between its markers. -/
def shown (layout : Layout) (cs : List Char) : List Char :=
  match layout with
  | multiline => unclosing cs
  | compact => flat (unclosing cs)

/-- The comment of a node is shown between markers, on lines of its own or on the same
line, as the layout has it; there is none if it is empty. -/
theorem nodeComment_eq (layout : Layout) (cs : List Char) :
  layout.nodeComment cs
    = if cs = [] then []
      else match layout with
        | multiline => blockComment (layout.shown cs)
        | compact => inlineComment (layout.shown cs)
  := by
  cases cs <;> cases layout <;> rfl

/-- The comment of a literal is shown between markers on the same line in either layout. -/
theorem literalComment_eq (layout : Layout) (cs : List Char) :
  layout.literalComment cs = if cs = [] then [] else inlineComment (layout.shown cs)
  := by
  cases cs <;> cases layout <;> rfl

/-- Of a comment the reader keeps what was shown, tidied. -/
theorem kept_eq (layout : Layout) (comment : String) :
  layout.kept comment = String.ofList (tidy (layout.shown comment.toList))
  := by
  cases layout with
  | multiline => rfl
  | compact => rw [kept, shown, tidy_of_not_mem (lineFeed_not_mem_flat _)]

/-- No comment is read back as none. -/
@[simp]
theorem kept_empty (layout : Layout) :
  layout.kept "" = ""
  := by
  cases layout <;> rfl

/-- No layout shows a comment with a closing marker in it. -/
theorem unclosed_shown (layout : Layout) (cs : List Char) :
  Unclosed (layout.shown cs)
  := by
  cases layout with
  | multiline => apply unclosed_unclosing
  | compact => apply unclosed_flat (unclosed_unclosing cs)

/-- A layout shows nothing of an empty comment only. -/
@[simp]
theorem shown_eq_nil {layout : Layout} {cs : List Char} :
  layout.shown cs = [] ↔ cs = []
  := by
  cases layout <;> simp [shown, flat]

/-- A comment that was shown is shown in the same way again. -/
@[simp]
theorem shown_shown (layout : Layout) (cs : List Char) :
  layout.shown (layout.shown cs) = layout.shown cs
  := by
  have h := unclosing_eq_self (unclosed_shown layout cs)
  cases layout with
  | multiline => apply h
  | compact =>
    rw [shown, h]
    apply flat_eq_self (lineFeed_not_mem_flat _)

/-- Of a comment that was read before, all is kept that is shown. -/
theorem toList_kept (layout : Layout) {comment : String} (h : IsTidy comment.toList) :
  (layout.kept comment).toList = layout.shown comment.toList
  := by
  have hu := isTidy_unclosing h
  cases layout with
  | multiline => simp [kept, shown, tidy_eq_self hu]
  | compact => simp [kept, shown, trim_eq_self (trimmed_flat hu.trimmed)]

/-- What was kept of the comment of a node is written as the comment was. -/
theorem nodeComment_kept (layout : Layout) {comment : String} (h : IsTidy comment.toList) :
  layout.nodeComment (layout.kept comment).toList = layout.nodeComment comment.toList
  := by
  simp [nodeComment_eq, toList_kept layout h]

/-- What was kept of the comment of a literal is written as the comment was. -/
theorem literalComment_kept (layout : Layout) {comment : String} (h : IsTidy comment.toList) :
  layout.literalComment (layout.kept comment).toList = layout.literalComment comment.toList
  := by
  simp [literalComment_eq, toList_kept layout h]

end BladeStyle.Layout
