import BladeStyle.Editing.Engine
import BladeStyle.Proofs.CommentBlindness
import BladeStyle.Proofs.RoundTrip
import BladeStyle.Proofs.Style.Findings

/-!
# Formatted texts stay as they are

A formatted text is parsed to the tree that was written, with what is kept of its comments.
Since the comments were parsed before, what is kept of them is written in the same way, and
findings do not depend on comments.  Hence a formatted text is its own formatted form.
-/

namespace BladeStyle

/-! ### Trees that were read -/

namespace Style

theorem Tidy.sameLayout {t : Style} (h : t.Tidy) (layout : Layout) :
  t.Everywhere (SameLayout layout layout.kept)
  := by
  apply Everywhere.imp h
  intro s hs
  constructor
  · apply Layout.nodeComment_kept layout hs.node
  · intro p hp
    apply Layout.literalComment_kept layout (hs.params p hp)

/-- What is kept of a tree that was read is formatted in the same way. -/
theorem format_kept {t : Style} (h : t.Tidy) (options : FormatOptions) :
  (t.mapComments options.layout.kept).format options = t.format options
  := by
  rw [Style.format, Style.format, findings_mapComments, Style.text, Style.text,
    write_mapComments (h.sameLayout options.layout)]

end Style

/-! ### Formatting again -/

/-- The tree that is formatted, of a tree that was parsed. -/
def FormatOptions.select (options : FormatOptions) (t : Style) : Style :=
  if options.keepComments then t else t.withoutComments

theorem FormatOptions.parsed_select {options : FormatOptions} {levels : Nat} {t : Style}
    (h : Registry.builtin.Parsed levels t) :
  Registry.builtin.Parsed levels (options.select t)
  := by
  rw [select]
  split
  · exact h
  · exact h.withoutComments

/-- A text that is parsed to what is kept of a formatted tree is formatted as the tree. -/
theorem format_of_parse_kept {options : FormatOptions} {levels : Nat} {t : Style}
    (h : Registry.builtin.Parsed levels t) {text : String}
    (hparse : Style.parse text = .ok ((options.select t).mapComments options.layout.kept)) :
  format text options = (options.select t).format options
  := by
  rw [BladeStyle.format, hparse]
  cases hkeep : options.keepComments with
  | true =>
    have htidy : (options.select t).Tidy := (FormatOptions.parsed_select h).tidy
    simp only [if_true, Style.format_kept htidy]
  | false =>
    have hselect : options.select t = t.withoutComments := by
      rw [FormatOptions.select, hkeep, if_neg Bool.false_ne_true]
    have hsame : (t.withoutComments.mapComments options.layout.kept).withoutComments
        = t.withoutComments := by
      simp only [Style.withoutComments, Style.mapComments_mapComments]
      rfl
    simp only [hselect, hsame, Bool.false_eq_true, if_false]

/-- Formatting is idempotent. -/
theorem format_format {text : String} {options : FormatOptions} {out : String}
    (h : format text options = .ok out) :
  format out options = .ok out
    ∧ format (out ++ "\n") options = .ok out
    ∧ (options = {} → ∃ e, Engine.ofText? text = .ok e ∧ e.text? = some out)
  := by
  obtain ⟨t, ht, hformat⟩ := exists_of_format_eq_ok h
  have hparsed := Registry.parsed_of_parse Registry.regular_builtin.uncommented ht
  have hselect : Registry.builtin.Parsed (levelLimit + 1) (options.select t) :=
    FormatOptions.parsed_select hparsed
  obtain ⟨s, hwrite, hs⟩ :=
    Registry.exists_reads Registry.regular_builtin hselect.wellFormed options.layout
  obtain ⟨cs, hcs, rfl⟩ := Style.exists_of_format_eq_ok hformat
  obtain rfl := Except.ok.inj (hwrite.symm.trans hcs)
  have hagain : ∀ x : Source, s.Padded x →
      format (String.ofList x.written) options = .ok (String.ofList s.written) := by
    intro x hx
    rw [← hformat]
    apply format_of_parse_kept hparsed
    rw [Style.parse, (hs.padded hx).parse_ofList, if_pos (Nat.lt_succ_iff.mp hselect.height_lt)]
  refine ⟨?_, ?_, ?_⟩
  · apply hagain s (Source.Padded.refl s)
  · have hx : s.Padded (s ++ Source.plain ['\n']) := by
      use [], Source.plain ['\n']
      exact ⟨Source.Padding.nil, Source.padding_plain (by simp [Text.isLayout]), rfl⟩
    have hline := hagain _ hx
    rw [Source.written_append, Source.written_plain, String.ofList_append] at hline
    exact hline
  · rintro rfl
    use ⟨t, some (String.ofList s.written), false⟩
    have htext : t.text .multiline = .ok (String.ofList s.written) := by
      rw [Style.text]
      exact congrArg (Except.map String.ofList) hwrite
    rw [Engine.ofText?, ht]
    simp only [htext, true_and]
    rfl

theorem format_format_rgb :
  format "// a */ <b>, \n Rgb</* p\n  q */ 1 , 2,3>" {}
      = .ok "/*\na * / <b>,\n*/\nRgb</* p\nq */ 1, 2, 3>"
    ∧ format "/*\na * / <b>,\n*/\nRgb</* p\nq */ 1, 2, 3>" {}
      = .ok "/*\na * / <b>,\n*/\nRgb</* p\nq */ 1, 2, 3>"
    ∧ format ("/*\na * / <b>,\n*/\nRgb</* p\nq */ 1, 2, 3>" ++ "\n") {}
      = .ok "/*\na * / <b>,\n*/\nRgb</* p\nq */ 1, 2, 3>"
    ∧ ∃ e, Engine.ofText? "// a */ <b>, \n Rgb</* p\n  q */ 1 , 2,3>" = .ok e
      ∧ e.text? = some "/*\na * / <b>,\n*/\nRgb</* p\nq */ 1, 2, 3>"
  := by
  have h : format "// a */ <b>, \n Rgb</* p\n  q */ 1 , 2,3>" {}
      = .ok "/*\na * / <b>,\n*/\nRgb</* p\nq */ 1, 2, 3>" := by
    decide +kernel
  obtain ⟨hout, hline, hengine⟩ := format_format h
  exact ⟨h, hout, hline, hengine rfl⟩

end BladeStyle
