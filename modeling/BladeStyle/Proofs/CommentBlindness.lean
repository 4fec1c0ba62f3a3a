import BladeStyle.Formatting
import BladeStyle.Proofs.Parsing.Shape
import BladeStyle.Proofs.Registry.Builtin
import BladeStyle.Proofs.Style.Write

/-!
# Comments have no influence

Replacing every comment of a text by a space is a neutral rewriting that makes all comments
say nothing.  Hence it changes neither the errors nor the tree of the text apart from the
comments in it, and a text that is formatted without comments has none.
-/

namespace BladeStyle

/-! ### Blanked sources -/

/-- Spaces in place of comments leave nothing of what these say. -/
theorem Piece.recommenting_blanked :
  Recommenting (fun p => [p.blanked]) (fun _ => "")
  where
  solid p hp := by
    obtain ⟨c, rfl, -⟩ := Source.char_of_isBlank_eq_false hp
    rfl
  blank p hp := by
    use List.cons_ne_nil _ _
    intro q hq
    obtain rfl := List.mem_singleton.mp hq
    cases p with
    | char c => exact hp
    | comment c => rfl
  text s := by
    have hcomments : Source.comments (s.flatMap fun p => [p.blanked]) = [] := by
      apply List.filterMap_eq_nil_iff.mpr
      intro q hq
      obtain ⟨p, -, hq⟩ := List.mem_flatMap.mp hq
      obtain rfl := List.mem_singleton.mp hq
      cases p <;> rfl
    rw [hcomments]
    rfl

theorem Source.blanked_eq_flatMap (s : Source) :
  s.blanked = s.flatMap fun p => [p.blanked]
  := List.map_eq_flatMap

/-- A text with spaces in place of its comments has the source with spaces in their place. -/
theorem Source.ofText?_blanked {text : String} {s : Source} (h : ofText? text = .ok s) :
  ofText? (String.ofList s.blanked.written) = .ok s.blanked
  := by
  rw [ofText?, String.toList_ofList, ofChars?_written_blanked (eq_ok_of_mapError h)]
  rfl

/-! ### Parsing and formatting -/

/-- A text with spaces in place of its comments is parsed as the text is, less the
comments. -/
theorem Registry.parse_blanked {r : Registry} (hr : r.Uncommented) {text : String} {s : Source}
    (h : Source.ofText? text = .ok s) :
  r.parse (String.ofList s.blanked.written) = (r.parse text).map Style.withoutComments
  := by
  rw [parse, parse, Source.ofText?_blanked h, h]
  simp only [Source.blanked_eq_flatMap, parseWithin_flatMap hr Piece.recommenting_blanked]
  rfl

/-- Removing comments twice is removing them once. -/
theorem Style.withoutComments_withoutComments (t : Style) :
  t.withoutComments.withoutComments = t.withoutComments
  := mapComments_mapComments _ _ t

/-- If comments are removed in any case, spaces in their place make no difference. -/
theorem format_blanked {text : String} {s : Source} (h : Source.ofText? text = .ok s)
    {options : FormatOptions} (hkeep : options.keepComments = false) :
  format (String.ofList s.blanked.written) options = format text options
  := by
  rw [format, format, Style.parse, Style.parse,
    Registry.parse_blanked Registry.regular_builtin.uncommented h, hkeep]
  cases Registry.builtin.parse text with
  | error e => rfl
  | ok t => simp [Except.map, Style.withoutComments_withoutComments]

/-! ### The output -/

/-- No name has a slash in it. -/
theorem Source.IsName.slash_not_mem {name : List Char} (h : IsName name) :
  '/' ∉ name
  := by
  intro hmem
  exact ne_of_isInert (h.isInert '/' hmem) rfl rfl

/-- A well-formed style less its comments is written without a slash. -/
theorem Style.plain_withoutComments {r : Registry} (hr : r.Regular) {t : Style}
    (h : t.WellFormed r) :
  t.withoutComments.Everywhere Plain
  := by
  apply Everywhere.mapComments h
  intro s hs
  constructor
  · apply uncommented_withoutComments
  · rw [name_mapComments]
    apply (hs.isName hr).slash_not_mem

theorem Style.exists_of_format_eq_ok {t : Style} {options : FormatOptions} {out : String}
    (h : t.format options = .ok out) :
  ∃ cs, t.write options.layout = .ok cs ∧ String.ofList cs = out
  := by
  rw [Style.format] at h
  split at h
  · cases h
  · apply exists_of_map_eq_ok (eq_ok_of_mapError h)

theorem exists_of_format_eq_ok {text : String} {options : FormatOptions} {out : String}
    (h : format text options = .ok out) :
  ∃ t, Style.parse text = .ok t
    ∧ (if options.keepComments then t else t.withoutComments).format options = .ok out
  := by
  rw [BladeStyle.format] at h
  split at h
  · cases h
  · next t ht => use t

/-- What is formatted without comments has none. -/
theorem comments_of_format_eq_ok {text : String} {options : FormatOptions}
    (hkeep : options.keepComments = false) {out : String} (h : format text options = .ok out) :
  ∃ s, Source.ofText? out = .ok s ∧ s.comments = []
  := by
  obtain ⟨t, ht, hformat⟩ := exists_of_format_eq_ok h
  have hparsed := Registry.parsed_of_parse Registry.regular_builtin.uncommented ht
  rw [hkeep, if_neg Bool.false_ne_true] at hformat
  obtain ⟨cs, hwrite, rfl⟩ := Style.exists_of_format_eq_ok hformat
  have hslash := Style.slash_not_mem_write
    (Style.plain_withoutComments Registry.regular_builtin hparsed.wellFormed) hwrite
  use Source.plain cs
  constructor
  · have hread := Source.ofChars?_written (Source.isStable_plain hslash)
    rw [Source.written_plain] at hread
    rw [Source.ofText?, String.toList_ofList, hread]
    rfl
  · apply Source.comments_plain

/-- Comments have no influence.  Let a text be divided into its comments and the
characters outside them, and let every comment be replaced by a space.  Parsing then gives
the same error, or the same tree without its comments.  Formatting without comments gives
the same result, and what it gives has no comment in it. -/
theorem comments_have_no_influence {r : Registry} (hr : r.Uncommented) {text : String} {s : Source}
    (h : Source.ofText? text = .ok s) :
  s.written = text.toList
    ∧ r.parse (String.ofList s.blanked.written) = (r.parse text).map Style.withoutComments
    ∧ ∀ options : FormatOptions, options.keepComments = false →
      format (String.ofList s.blanked.written) options = format text options
        ∧ ∀ out, format text options = .ok out →
          ∃ o, Source.ofText? out = .ok o ∧ o.comments = []
  := by
  refine ⟨?_, ?_, ?_⟩
  · apply Source.written_of_ofChars? (eq_ok_of_mapError h)
  · apply Registry.parse_blanked hr h
  · intro options hkeep
    use format_blanked h hkeep
    exact fun out hout => comments_of_format_eq_ok hkeep hout

theorem comments_have_no_influence_rgb :
  Registry.builtin.Uncommented
    ∧ ∃ s, Source.ofText? "Rgb/* < */<1, // ,\n2,/* */3>" = .ok s
      ∧ s.comments.length = 3
      ∧ s.written = "Rgb/* < */<1, // ,\n2,/* */3>".toList
      ∧ Style.parse "Rgb <1,  2, 3>"
        = (Style.parse "Rgb/* < */<1, // ,\n2,/* */3>").map Style.withoutComments
      ∧ format "Rgb <1,  2, 3>" ⟨false, true, .compact⟩ = .ok "Rgb<1, 2, 3>"
      ∧ ∃ o, Source.ofText? "Rgb<1, 2, 3>" = .ok o ∧ o.comments = []
  := by
  have hr := Registry.regular_builtin.uncommented
  obtain ⟨s, h⟩ : ∃ s, Source.ofText? "Rgb/* < */<1, // ,\n2,/* */3>" = .ok s := ⟨_, by rfl⟩
  have hs : s.comments.length = 3 ∧ String.ofList s.blanked.written = "Rgb <1,  2, 3>" := by
    cases h
    decide +kernel
  have hresult : format "Rgb/* < */<1, // ,\n2,/* */3>" ⟨false, true, .compact⟩
      = .ok "Rgb<1, 2, 3>" := by
    decide +kernel
  obtain ⟨hwritten, hparse, hformat⟩ := comments_have_no_influence hr h
  rw [hs.2] at hparse hformat
  obtain ⟨hsame, hout⟩ := hformat ⟨false, true, .compact⟩ rfl
  exact ⟨hr, s, h, hs.1, hwritten, hparse, hsame.trans hresult, hout _ hresult⟩

end BladeStyle
