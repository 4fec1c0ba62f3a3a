import BladeStyle.Proofs.Text.Trim
import Mathlib.Data.List.Chain

/-!
# Tidy texts

A tidy text has no white space at its ends, and none next to a line feed.  `Text.tidy`
gives a tidy text, leaves a tidy text as it is, and does not see white space around a text
or tabs at the start of its lines.
-/

namespace BladeStyle.Text

/-- Two neighbours in a text whose lines have no white space at their ends. -/
def Flush (c d : Char) : Prop :=
  (c = '\n' → isWhiteSpace d = true → d = '\n') ∧ (d = '\n' → isWhiteSpace c = true → c = '\n')

/-- A text of trimmed lines without blank lines at its ends. -/
structure IsTidy (cs : List Char) : Prop where
  trimmed : Trimmed cs
  flush : cs.IsChain Flush

/-! ### Lines -/

@[simp]
theorem lines_nil :
  lines [] = [[]]
  := rfl

/-- A line feed in front makes an empty first line. -/
@[simp]
theorem lines_cons_lineFeed (cs : List Char) :
  lines ('\n' :: cs) = [] :: lines cs
  := by
  simp [lines, parts]

/-- A character in front of a text stands in front of its first line. -/
theorem exists_lines_cons {c : Char} (h : c ≠ '\n') (cs : List Char) :
  ∃ l ls, lines cs = l :: ls ∧ lines (c :: cs) = (c :: l) :: ls
  := by
  obtain ⟨l, ls, e⟩ := List.exists_cons_of_ne_nil (parts_ne_nil '\n' cs)
  use l, ls, e
  simp [lines, parts, h, e]

/-- A character after a text stands after its last line. -/
theorem exists_lines_concat {c : Char} (h : c ≠ '\n') (cs : List Char) :
  ∃ ls l, lines cs = ls ++ [l] ∧ lines (cs ++ [c]) = ls ++ [l ++ [c]]
  := by
  induction cs with
  | nil =>
    use [], []
    simp [lines, parts, h]
  | cons d cs ih =>
    obtain ⟨ls, l, e, e'⟩ := ih
    by_cases hd : d = '\n'
    · subst hd
      use [] :: ls, l
      simp [e, e']
    · obtain ⟨m, ms, f, f'⟩ := exists_lines_cons hd cs
      obtain ⟨n, ns, g, g'⟩ := exists_lines_cons hd (cs ++ [c])
      rw [List.cons_append, f', g']
      rw [f] at e
      rw [g] at e'
      cases ls with
      | nil =>
        use [], d :: l
        simp_all
      | cons k ls =>
        use (d :: k) :: ls, l
        simp_all

/-- A line feed at the end makes an empty last line. -/
theorem lines_concat_lineFeed (cs : List Char) :
  lines (cs ++ ['\n']) = lines cs ++ [[]]
  := by
  induction cs with
  | nil => simp
  | cons d cs ih =>
    by_cases hd : d = '\n'
    · subst hd
      simp [ih]
    · obtain ⟨m, ms, f, f'⟩ := exists_lines_cons hd cs
      obtain ⟨n, ns, g, g'⟩ := exists_lines_cons hd (cs ++ ['\n'])
      rw [List.cons_append, f', g']
      rw [g, f] at ih
      simp_all

/-- A text without line feeds is a single line. -/
theorem lines_eq_singleton {cs : List Char} (h : '\n' ∉ cs) :
  lines cs = [cs]
  := by
  induction cs with
  | nil => rfl
  | cons c cs ih =>
    rw [List.mem_cons, not_or] at h
    obtain ⟨l, ls, e, e'⟩ := exists_lines_cons (Ne.symm h.1) cs
    rw [ih h.2] at e
    simp_all

/-- No line has a line feed in it. -/
theorem lineFeed_not_mem_of_mem_lines {cs l : List Char} (h : l ∈ lines cs) :
  '\n' ∉ l
  := by
  induction cs generalizing l with
  | nil => simp_all
  | cons c cs ih =>
    by_cases hc : c = '\n'
    · subst hc
      rw [lines_cons_lineFeed, List.mem_cons] at h
      rcases h with rfl | h
      · simp
      · apply ih h
    · obtain ⟨m, ms, e, e'⟩ := exists_lines_cons hc cs
      rw [e', List.mem_cons] at h
      rcases h with rfl | h
      · have hm : '\n' ∉ m := ih (by simp [e])
        simp [Ne.symm hc, hm]
      · apply ih
        simp [e, h]

@[simp]
theorem unlines_nil :
  unlines [] = []
  := rfl

@[simp]
theorem unlines_singleton (l : List Char) :
  unlines [l] = l
  := by
  simp [unlines]

@[simp]
theorem unlines_cons_cons (l m : List Char) (ls : List (List Char)) :
  unlines (l :: m :: ls) = l ++ '\n' :: unlines (m :: ls)
  := by
  simp [unlines]

/-- The last of several lines follows a line feed. -/
theorem unlines_concat {ls : List (List Char)} (h : ls ≠ []) (l : List Char) :
  unlines (ls ++ [l]) = unlines ls ++ '\n' :: l
  := by
  induction ls with
  | nil => contradiction
  | cons k ls ih =>
    cases ls with
    | nil => simp
    | cons m ls => simp_all

/-! ### White space around a text -/

/-- White space in front of a text is tidied away. -/
theorem tidy_cons_white {w : Char} (h : isWhiteSpace w = true) (cs : List Char) :
  tidy (w :: cs) = tidy cs
  := by
  by_cases hw : w = '\n'
  · subst hw
    obtain ⟨l, ls, e⟩ := List.exists_cons_of_ne_nil (parts_ne_nil '\n' cs)
    rw [← lines] at e
    rw [tidy, tidy, lines_cons_lineFeed, e]
    simp only [List.map_cons, unlines_cons_cons]
    apply trim_cons_white h
  · obtain ⟨l, ls, e, e'⟩ := exists_lines_cons hw cs
    simp only [tidy, e, e', List.map_cons, trim_cons_white h]

/-- White space behind a text is tidied away. -/
theorem tidy_concat_white {w : Char} (h : isWhiteSpace w = true) (cs : List Char) :
  tidy (cs ++ [w]) = tidy cs
  := by
  by_cases hw : w = '\n'
  · subst hw
    have hne : (lines cs).map trim ≠ [] := by
      simpa [lines] using parts_ne_nil '\n' cs
    rw [tidy, tidy, lines_concat_lineFeed, List.map_append, List.map_singleton,
      unlines_concat hne]
    apply trim_concat_white h
  · obtain ⟨ls, l, e, e'⟩ := exists_lines_concat hw cs
    simp only [tidy, e, e', List.map_append, List.map_singleton, trim_concat_white h]

/-! ### The result is tidy -/

/-- Within one line there are no ends of lines to keep free of white space. -/
theorem isChain_flush_of_not_mem {cs : List Char} (h : '\n' ∉ cs) :
  cs.IsChain Flush
  := by
  induction cs with
  | nil => apply List.isChain_nil
  | cons c cs ih =>
    rw [List.mem_cons, not_or] at h
    apply List.IsChain.cons (ih h.2)
    intro d hd
    constructor
    · intro hc
      exact absurd hc.symm h.1
    · intro hd'
      subst hd'
      exact absurd (List.mem_of_head? hd) h.2

/-- A line feed can come after a character that is no white space. -/
theorem flush_lineFeed_of_not_isWhiteSpace {c : Char} (hw : isWhiteSpace c = false) :
  Flush c '\n'
  := by
  constructor
  · rintro rfl
    cases hw
  · intro _ hw'
    rw [hw] at hw'
    cases hw'

/-- A line feed can come before a trimmed line. -/
theorem flush_lineFeed_of_trimmed {m : List Char} (hm : Trimmed m) (ms : List (List Char)) :
  ∀ d ∈ (unlines (m :: ms)).head?, Flush '\n' d
  := by
  intro d hd
  constructor
  · intro _ hw
    cases m with
    | nil =>
      cases ms with
      | nil => simp at hd
      | cons n ns => simpa using hd.symm
    | cons e m =>
      have he : isWhiteSpace e = false := hm.head e rfl
      cases ms <;> simp_all
  · intro _ _
    rfl

/-- Lines that are trimmed, one below the other. -/
theorem isChain_flush_unlines {ls : List (List Char)}
    (h : ∀ l ∈ ls, Trimmed l ∧ l.IsChain Flush) :
  (unlines ls).IsChain Flush
  := by
  induction ls with
  | nil => apply List.isChain_nil
  | cons l ls ih =>
    obtain ⟨hl, hls⟩ := List.forall_mem_cons.mp h
    cases ls with
    | nil => simpa using hl.2
    | cons m ms =>
      have hm : Trimmed m := (List.forall_mem_cons.mp hls).1.1
      rw [unlines_cons_cons]
      apply List.IsChain.append hl.2
      · apply List.IsChain.cons (ih hls)
        apply flush_lineFeed_of_trimmed hm
      · intro c hc d hd
        obtain rfl : '\n' = d := by simpa using hd
        apply flush_lineFeed_of_not_isWhiteSpace (hl.1.last c hc)

/-- A text that was tidied is tidy. -/
theorem isTidy_tidy (cs : List Char) :
  IsTidy (tidy cs)
  := by
  constructor
  · apply trimmed_trim
  · apply List.IsChain.infix _ (trim_isInfix _)
    apply isChain_flush_unlines
    intro l hl
    obtain ⟨k, hk, rfl⟩ := List.mem_map.mp hl
    constructor
    · apply trimmed_trim
    · apply isChain_flush_of_not_mem
      intro hmem
      apply lineFeed_not_mem_of_mem_lines hk
      apply (trim_isInfix k).subset hmem

/-! ### Tidy texts stay as they are -/

/-- The first line of a text is empty only if the text begins with a line feed. -/
theorem eq_lineFeed_of_lines_eq_nil_cons {c : Char} {cs : List Char} {ls : List (List Char)}
    (h : lines (c :: cs) = [] :: ls) :
  c = '\n'
  := by
  by_contra hn
  obtain ⟨m, ms, -, e⟩ := exists_lines_cons hn cs
  rw [e] at h
  cases h

/-- No white space stands at the start of the line after a line feed. -/
theorem head_of_flush_lineFeed {cs l : List Char} {ls : List (List Char)} (e : lines cs = l :: ls)
    (hhead : ∀ d ∈ l.head?, d ∈ cs.head?) (hflush : ∀ d ∈ cs.head?, Flush '\n' d) :
  ∀ d ∈ l.head?, isWhiteSpace d = false
  := by
  intro d hd
  have hmem : l ∈ lines cs := by
    rw [e]
    apply List.mem_cons_self
  by_contra hw
  have hd' : d = '\n' := (hflush d (hhead d hd)).1 rfl (eq_true_of_ne_false hw)
  subst hd'
  apply lineFeed_not_mem_of_mem_lines hmem (List.mem_of_head? hd)

/-- A character that is not a line feed is no white space if its line ends with it. -/
theorem last_of_flush {c : Char} {cs : List Char} {ls : List (List Char)} (hn : c ≠ '\n')
    (e : lines cs = [] :: ls) (hflush : ∀ d ∈ cs.head?, Flush c d)
    (hlast : ∀ d ∈ (c :: cs).getLast?, isWhiteSpace d = false) :
  isWhiteSpace c = false
  := by
  cases cs with
  | nil =>
    apply hlast
    rfl
  | cons d cs =>
    have hd : d = '\n' := eq_lineFeed_of_lines_eq_nil_cons e
    by_contra hw
    exact hn ((hflush d rfl).2 hd (eq_true_of_ne_false hw))

/-- Every line of a tidy text is trimmed, the first one up to its start. -/
theorem exists_lines_of_flush {cs : List Char} (h : cs.IsChain Flush)
    (hlast : ∀ c ∈ cs.getLast?, isWhiteSpace c = false) :
  ∃ l ls, lines cs = l :: ls ∧ (∀ c ∈ l.head?, c ∈ cs.head?)
    ∧ (∀ c ∈ l.getLast?, isWhiteSpace c = false) ∧ ∀ m ∈ ls, Trimmed m
  := by
  induction cs with
  | nil =>
    use [], []
    simp
  | cons c cs ih =>
    obtain ⟨hc, hcs⟩ := List.isChain_cons.mp h
    have hlast' : ∀ d ∈ cs.getLast?, isWhiteSpace d = false := by
      intro d hd
      apply hlast d (List.mem_getLast?_cons hd)
    obtain ⟨l, ls, e, hhead, hl, hls⟩ := ih hcs hlast'
    by_cases hn : c = '\n'
    · subst hn
      use [], lines cs
      refine ⟨lines_cons_lineFeed cs, by simp, by simp, ?_⟩
      rw [e, List.forall_mem_cons]
      exact ⟨⟨head_of_flush_lineFeed e hhead hc, hl⟩, hls⟩
    · obtain ⟨l', ls', e', e''⟩ := exists_lines_cons hn cs
      obtain ⟨rfl, rfl⟩ : l' = l ∧ ls' = ls := by simpa [e'] using e
      use c :: l', ls'
      refine ⟨e'', by simp, ?_, hls⟩
      intro d hd
      cases l' with
      | nil =>
        obtain rfl : c = d := by simpa using hd
        apply last_of_flush hn e' hc hlast
      | cons k l' =>
        apply hl
        rwa [List.getLast?_cons_cons] at hd

/-- A tidy text stays as it is when it is tidied, so that tidying twice is tidying once. -/
theorem tidy_eq_self {cs : List Char} (h : IsTidy cs) :
  tidy cs = cs
  := by
  obtain ⟨l, ls, e, hhead, hl, hls⟩ := exists_lines_of_flush h.flush h.trimmed.last
  have hl' : Trimmed l := ⟨fun c hc => h.trimmed.head c (hhead c hc), hl⟩
  have hmap : (lines cs).map trim = lines cs := by
    apply Eq.trans _ (List.map_id _)
    apply List.map_congr_left
    intro m hm
    apply trim_eq_self
    rw [e] at hm
    rcases List.mem_cons.mp hm with rfl | hm
    · apply hl'
    · apply hls m hm
  rw [tidy, hmap, unlines_lines, trim_eq_self h.trimmed]

/-- A text on one line is tidied by trimming it. -/
theorem tidy_of_not_mem {cs : List Char} (h : '\n' ∉ cs) :
  tidy cs = trim cs
  := by
  rw [tidy, lines_eq_singleton h]
  simp

/-- Tidy texts that are not empty, one below the other. -/
theorem isTidy_unlines {ls : List (List Char)} (h : ∀ l ∈ ls, IsTidy l ∧ l ≠ []) :
  IsTidy (unlines ls)
  := by
  constructor
  · induction ls with
    | nil => apply trimmed_nil
    | cons l ls ih =>
      obtain ⟨⟨hl, hne⟩, hls⟩ := List.forall_mem_cons.mp h
      cases ls with
      | nil => simpa using hl.trimmed
      | cons m ms =>
        have hm : Trimmed (unlines (m :: ms)) := ih hls
        obtain ⟨c, l, rfl⟩ := List.exists_cons_of_ne_nil hne
        have hne' : unlines (m :: ms) ≠ [] := by
          have := (hls m (by simp)).2
          cases ms <;> simp_all
        rw [unlines_cons_cons]
        constructor
        · apply hl.trimmed.head
        · rw [List.getLast?_append_of_ne_nil _ (by simp), List.getLast?_cons_of_ne_nil hne']
          apply hm.last
  · apply isChain_flush_unlines
    intro l hl
    exact ⟨(h l hl).1.trimmed, (h l hl).1.flush⟩

end BladeStyle.Text
