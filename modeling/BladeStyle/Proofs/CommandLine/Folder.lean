import BladeStyle.CommandLine.Folder
import BladeStyle.Proofs.Formatting

/-!
# Formatted files

Two paths with the same components lead to the same file.  A file that was written is read
back, and no other file changes.  The text that a file has when it is formatted ends in a line
break; it is parsed to what was kept of the tree, and a file that has this text already stays
as it is.  Hence files can be formatted one after the other, in any order and more than once:
`Folder.Formats` tells what has become of a folder by then, in terms of the folder at the start.
-/

namespace BladeStyle

/-- A formatted text that ends in a line break is parsed to what was written of the tree, and
its formatted form is the same. -/
theorem exists_parse_of_format {text : String} {options : FormatOptions} {out : String}
    (h : format text options = .ok out) :
  ∃ t, Style.parse text = .ok t
    ∧ Style.parse (out ++ "\n") = .ok ((options.select t).mapComments options.layout.kept)
    ∧ format (out ++ "\n") options = .ok out
  := by
  obtain ⟨t, ht, hformat⟩ := exists_of_format_eq_ok h
  have hparsed := Registry.parsed_of_parse Registry.regular_builtin.uncommented ht
  have hselect : Registry.builtin.Parsed (levelLimit + 1) (options.select t) :=
    FormatOptions.parsed_select hparsed
  obtain ⟨s, hwrite, hs⟩ :=
    Registry.exists_reads Registry.regular_builtin hselect.wellFormed options.layout
  obtain ⟨cs, hcs, rfl⟩ := Style.exists_of_format_eq_ok hformat
  obtain rfl := Except.ok.inj (hwrite.symm.trans hcs)
  have hx : s.Padded (s ++ Source.plain ['\n']) := by
    use [], Source.plain ['\n']
    exact ⟨Source.Padding.nil, Source.padding_plain (by simp [Text.isLayout]), rfl⟩
  have hline : String.ofList (s ++ Source.plain ['\n']).written
      = String.ofList s.written ++ "\n" := by
    rw [Source.written_append, Source.written_plain, String.ofList_append]
  have hparse : Style.parse (String.ofList s.written ++ "\n")
      = .ok ((options.select t).mapComments options.layout.kept) := by
    rw [← hline, Style.parse, (hs.padded hx).parse_ofList,
      if_pos (Nat.lt_succ_iff.mp hselect.height_lt)]
  use t, ht, hparse
  exact (format_of_parse_kept hparsed hparse).trans hformat

namespace CommandLine

/-! ### Reading and writing -/

theorem decode_eq_ok {bytes : ByteArray} {text : String} :
  decode bytes = .ok text ↔ bytes = text.toUTF8
  := by
  rw [decode, String.fromUTF8?]
  constructor
  · intro h
    split at h
    · next htext =>
      split at htext
      · obtain rfl := Option.some.inj htext
        obtain rfl := Except.ok.inj h
        rfl
      · cases htext
    · cases h
  · rintro rfl
    simp only [String.toUTF8_eq_toByteArray, dif_pos text.isValidUTF8]
    rfl

namespace Folder

variable {f g : Folder} {path path' : String} {text : String}

theorem read_congr (h : components path = components path') :
  f.read path = f.read path'
  := by
  simp only [read, h]

theorem readText_eq_ok :
  f.readText path = .ok text ↔ f.read path = .ok text.toUTF8
  := by
  rw [readText]
  cases f.read path with
  | error e => simp only [reduceCtorEq]
  | ok bytes => rw [decode_eq_ok, Except.ok.injEq]

/-- The formatted text of the file at a path, which ends in a line break, or the message that
it cannot be formatted. -/
def formatted (f : Folder) (options : FormatOptions) (path : String) : Except String String :=
  match f.readText path with
  | .error e => .error s!"Failed to read `{path}`: {e.message}"
  | .ok text =>
    match format text options with
    | .error e => .error s!"{path}: {e.message}"
    | .ok out => .ok (out ++ "\n")

variable {options : FormatOptions} {done : List String}

theorem formatted_eq_ok :
  f.formatted options path = .ok text
    ↔ ∃ before out, f.readText path = .ok before ∧ format before options = .ok out
        ∧ text = out ++ "\n"
  := by
  rw [formatted]
  cases f.readText path with
  | error e => simp
  | ok before => cases hformat : format before options <;> simp [hformat, eq_comm]

theorem formatted_congr (h : g.read path = f.read path) :
  g.formatted options path = f.formatted options path
  := by
  simp only [formatted, readText, h]

/-- The formatted text of a file does not depend on the path that leads to it. -/
theorem formatted_of_components (hcomponents : components path' = components path)
    (h : f.formatted options path' = .ok text) :
  f.formatted options path = .ok text
  := by
  obtain ⟨before, out, hbefore, hformat, rfl⟩ := formatted_eq_ok.mp h
  rw [readText_eq_ok, read_congr hcomponents, ← readText_eq_ok] at hbefore
  exact formatted_eq_ok.mpr ⟨before, out, hbefore, hformat, rfl⟩

/-- A file that has a formatted text is formatted. -/
theorem formatted_of_read (h : f.formatted options path' = .ok text)
    (hread : g.read path = .ok text.toUTF8) :
  g.formatted options path = .ok text
  := by
  obtain ⟨before, out, -, hformat, rfl⟩ := formatted_eq_ok.mp h
  obtain ⟨-, -, -, hagain⟩ := exists_parse_of_format hformat
  exact formatted_eq_ok.mpr ⟨out ++ "\n", out, readText_eq_ok.mpr hread, hagain, rfl⟩

/-- The folder `g` is `f` with the files at some paths formatted. -/
structure Formats (options : FormatOptions) (f : Folder) (done : List String) (g : Folder) :
    Prop where
  formatted : ∀ path ∈ done, ∃ text, f.formatted options path = .ok text
    ∧ g.read path = .ok text.toUTF8
  kept : ∀ path, (∀ path' ∈ done, components path' ≠ components path) →
    g.read path = f.read path

namespace Formats

theorem nil (options : FormatOptions) (f : Folder) :
  Formats options f [] f
  := ⟨nofun, fun _ _ => rfl⟩

/-- Formatting some files changes no formatted text. -/
theorem formatted_eq (h : Formats options f done g) (path : String) :
  g.formatted options path = f.formatted options path
  := by
  by_cases hdone : ∃ path' ∈ done, components path' = components path
  · obtain ⟨path', hpath', hcomponents⟩ := hdone
    obtain ⟨text, htext, hread⟩ := h.formatted path' hpath'
    rw [read_congr hcomponents] at hread
    rw [formatted_of_read htext hread, formatted_of_components hcomponents htext]
  · apply formatted_congr
    apply h.kept path
    exact fun path' hpath' hcomponents => hdone ⟨path', hpath', hcomponents⟩

/-- A formatted file has its formatted text. -/
theorem settled (h : Formats options f done g) (hpath : path ∈ done) :
  ∃ text, g.formatted options path = .ok text ∧ g.readText path = .ok text
  := by
  obtain ⟨text, htext, hread⟩ := h.formatted path hpath
  use text, (h.formatted_eq path).trans htext, readText_eq_ok.mpr hread

end Formats

end Folder

end CommandLine

end BladeStyle
