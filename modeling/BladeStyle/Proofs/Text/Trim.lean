import BladeStyle.Text.Lines

/-!
# Trimming

`Text.trim` takes the white space off both ends of a text.  What it leaves is part of the
text, has no white space at its ends, and is the same whatever white space is put around
the text; a text without white space at its ends is left as it is.
-/

namespace BladeStyle.Text

/-- A text without white space at its ends. -/
structure Trimmed (cs : List Char) : Prop where
  head : ∀ c ∈ cs.head?, isWhiteSpace c = false
  last : ∀ c ∈ cs.getLast?, isWhiteSpace c = false

/-- The empty text has no white space at its ends. -/
theorem trimmed_nil :
  Trimmed []
  := by
  constructor <;> simp

/-! ### The end of a text -/

/-- White space at the end is trimmed on the right. -/
theorem trimRight_concat_white {w : Char} (h : isWhiteSpace w = true) (cs : List Char) :
  trimRight (cs ++ [w]) = trimRight cs
  := by
  induction cs with
  | nil => simp [trimRight, h]
  | cons c cs ih => simp [trimRight, ih]

/-- A text that does not end in white space stays as it is when trimmed on the right. -/
theorem trimRight_eq_self {cs : List Char} (h : ∀ c ∈ cs.getLast?, isWhiteSpace c = false) :
  trimRight cs = cs
  := by
  induction cs with
  | nil => rfl
  | cons c cs ih =>
    cases cs with
    | nil => simpa [trimRight] using h
    | cons d ds =>
      have hds : trimRight (d :: ds) = d :: ds := ih (by simpa using h)
      rw [trimRight, hds]

/-- Trimming on the right leaves a front part of the text. -/
theorem trimRight_isPrefix (cs : List Char) :
  trimRight cs <+: cs
  := by
  induction cs with
  | nil => apply List.prefix_refl
  | cons c cs ih =>
    simp only [trimRight]
    split
    · split
      · apply List.nil_prefix
      · simp
    · apply (List.prefix_cons_inj c).mpr ih

/-- A text that was trimmed on the right does not end in white space. -/
theorem last_trimRight (cs : List Char) :
  ∀ c ∈ (trimRight cs).getLast?, isWhiteSpace c = false
  := by
  induction cs with
  | nil => simp [trimRight]
  | cons c cs ih =>
    simp only [trimRight]
    split
    · split
      · simp
      · next h => simpa using h
    · next hne =>
      rw [List.getLast?_cons_of_ne_nil hne]
      apply ih

/-! ### Both ends -/

/-- A text that does not start with white space stays as it is when trimmed on the left. -/
theorem dropWhile_eq_self {cs : List Char} (h : ∀ c ∈ cs.head?, isWhiteSpace c = false) :
  cs.dropWhile isWhiteSpace = cs
  := by
  cases cs with
  | nil => rfl
  | cons c cs =>
    have hc : isWhiteSpace c = false := h c rfl
    simp [hc]

/-- A trimmed text stays as it is when it is trimmed. -/
theorem trim_eq_self {cs : List Char} (h : Trimmed cs) :
  trim cs = cs
  := by
  rw [trim, dropWhile_eq_self h.head, trimRight_eq_self h.last]

/-- Trimming leaves a stretch of the text. -/
theorem trim_isInfix (cs : List Char) :
  trim cs <:+: cs
  := by
  apply (trimRight_isPrefix _).isInfix.trans
  apply (List.dropWhile_suffix _).isInfix

/-- A text that was trimmed has no white space at its ends. -/
theorem trimmed_trim (cs : List Char) :
  Trimmed (trim cs)
  := by
  constructor
  · intro c hc
    obtain ⟨ds, hds⟩ := trimRight_isPrefix (cs.dropWhile isWhiteSpace)
    have hhead : c ∈ (cs.dropWhile isWhiteSpace).head? := by
      rw [← hds, List.head?_append]
      rw [trim, Option.mem_def] at hc
      simp [hc]
    have h := List.head?_dropWhile_not isWhiteSpace cs
    rw [Option.mem_def.mp hhead] at h
    simpa using h
  · apply last_trimRight

/-- White space in front is trimmed. -/
theorem trim_cons_white {w : Char} (h : isWhiteSpace w = true) (cs : List Char) :
  trim (w :: cs) = trim cs
  := by
  simp [trim, h]

/-- White space at the end is trimmed. -/
theorem trim_concat_white {w : Char} (h : isWhiteSpace w = true) (cs : List Char) :
  trim (cs ++ [w]) = trim cs
  := by
  rw [trim, trim, List.dropWhile_append]
  split
  · next hcs =>
    rw [List.isEmpty_iff] at hcs
    simp [hcs, h]
  · apply trimRight_concat_white h

/-- Trimming twice is trimming once. -/
@[simp]
theorem trim_trim (cs : List Char) :
  trim (trim cs) = trim cs
  := trim_eq_self (trimmed_trim cs)

end BladeStyle.Text
