import BladeStyle.Proofs.Source.Blank
import Mathlib.Data.List.TakeWhile

/-!
# Rewriting blank pieces

A rewriting is neutral if it replaces every blank piece by blank pieces, at least one, and
leaves the others alone.  It commutes with taking an expression apart: the name stays, and
the comments and the arguments are those of before, rewritten.  In the same way an
expression does not change when it is padded with layout characters.
-/

namespace BladeStyle

/-- A replacement of blank pieces by others. -/
structure Piece.Neutral (f : Piece → Source) : Prop where
  solid : ∀ p, p.isBlank = false → f p = [p]
  blank : ∀ p, p.isBlank = true → f p ≠ [] ∧ (f p).Blank

namespace Source

variable {f : Piece → Source}

/-! ### Prefixes -/

/-- A test that passes over what is blank stops at the same piece of a rewritten source. -/
theorem takeWhile_flatMap (hf : Piece.Neutral f) {test : Piece → Bool}
    (htest : ∀ p, p.isBlank = true → test p = true) (s : Source) :
  (s.flatMap f).takeWhile test = (s.takeWhile test).flatMap f
  := by
  induction s with
  | nil => rfl
  | cons p s ih =>
    rw [List.flatMap_cons]
    cases hp : p.isBlank with
    | true =>
      have hall : ∀ q ∈ f p, test q = true := fun q hq => htest q ((hf.blank p hp).2 q hq)
      rw [List.takeWhile_append_of_pos hall, List.takeWhile_cons_of_pos (htest p hp),
        List.flatMap_cons, ih]
    | false =>
      have hfp := hf.solid p hp
      rw [hfp, List.singleton_append, List.takeWhile_cons, List.takeWhile_cons]
      split
      · rw [List.flatMap_cons, hfp, List.singleton_append, ih]
      · rfl

/-- What is left behind the pieces that pass such a test is the rewritten rest. -/
theorem dropWhile_flatMap (hf : Piece.Neutral f) {test : Piece → Bool}
    (htest : ∀ p, p.isBlank = true → test p = true) (s : Source) :
  (s.flatMap f).dropWhile test = (s.dropWhile test).flatMap f
  := by
  induction s with
  | nil => rfl
  | cons p s ih =>
    rw [List.flatMap_cons]
    cases hp : p.isBlank with
    | true =>
      have hall : ∀ q ∈ f p, test q = true := fun q hq => htest q ((hf.blank p hp).2 q hq)
      rw [List.dropWhile_append_of_pos hall, List.dropWhile_cons_of_pos (htest p hp), ih]
    | false =>
      have hfp := hf.solid p hp
      rw [hfp, List.singleton_append, List.dropWhile_cons, List.dropWhile_cons]
      split
      · apply ih
      · rw [List.flatMap_cons, hfp, List.singleton_append]

theorem flatMap_eq_nil (hf : Piece.Neutral f) {s : Source} :
  s.flatMap f = [] ↔ s = []
  := by
  cases s with
  | nil => simp
  | cons p s =>
    have hne : f p ≠ [] := by
      cases hp : p.isBlank with
      | true => apply (hf.blank p hp).1
      | false => simp [hf.solid p hp]
    simp [hne]

/-! ### The parts of an expression -/

/-- A rewritten source is divided before its name at the same place. -/
theorem splitAtName_flatMap (hf : Piece.Neutral f) (s : Source) :
  splitAtName (s.flatMap f) = ((splitAtName s).1.flatMap f, (splitAtName s).2.flatMap f)
  := by
  simp only [splitAtName_eq]
  rw [takeWhile_flatMap hf fun _ => startsNoName_of_isBlank,
    dropWhile_flatMap hf fun _ => startsNoName_of_isBlank]

/-- A rewritten source is the same literal. -/
theorem literal_flatMap (hf : Piece.Neutral f) (s : Source) :
  literal (s.flatMap f) = literal s
  := by
  induction s with
  | nil => rfl
  | cons p s ih =>
    have happend : literal (p :: s) = literal [p] ++ literal s := literal_append [p] s
    rw [List.flatMap_cons, literal_append, ih, happend]
    congr 1
    cases hp : p.isBlank with
    | true =>
      have hblank : Blank [p] := by simpa [Blank] using hp
      rw [literal_of_blank (hf.blank p hp).2, literal_of_blank hblank]
    | false => rw [hf.solid p hp]

/-- A rewritten source has the same name, and its rest is rewritten. -/
theorem splitName_flatMap (hf : Piece.Neutral f) (s : Source) :
  splitName (s.flatMap f) = ((splitName s).1, (splitName s).2.flatMap f)
  := by
  induction s with
  | nil => rfl
  | cons p s ih =>
    cases hp : p.isBlank with
    | true =>
      obtain ⟨hne, hblank⟩ := hf.blank p hp
      obtain ⟨q, w, hw⟩ := List.exists_cons_of_ne_nil hne
      have hq : q.isBlank = true := hblank q (by simp [hw])
      rw [splitName_blank_cons hp, List.flatMap_cons, hw, List.cons_append,
        splitName_blank_cons hq]
    | false =>
      obtain ⟨c, rfl, -⟩ := char_of_isBlank_eq_false hp
      have hfc := hf.solid _ hp
      rw [List.flatMap_cons, hfc, List.singleton_append, splitName, splitName]
      split
      · rw [ih]
      · rw [List.flatMap_cons, hfc, List.singleton_append]

/-- The arguments of a rewritten source. -/
def rewriteArguments (f : Piece → Source) (found : Source × List Source) :
    Source × List Source :=
  (found.1.flatMap f, found.2.map (·.flatMap f))

/-- A rewritten source is divided at the same commas and ends at the same bracket. -/
theorem splitArguments_flatMap (hf : Piece.Neutral f) (depth : Nat) (s : Source) :
  splitArguments depth (s.flatMap f) = (splitArguments depth s).map (rewriteArguments f)
  := by
  have hopen := hf.solid (.char '<') rfl
  have hclose := hf.solid (.char '>') rfl
  have hcomma := hf.solid (.char ',') rfl
  fun_induction splitArguments depth s with
  | case1 => rfl
  | case2 depth s ih =>
    rw [List.flatMap_cons, hopen, List.singleton_append, splitArguments, ih]
    simp [Function.comp_def, rewriteArguments, hopen]
  | case3 s => simp [hclose, splitArguments, rewriteArguments]
  | case4 s depth ih =>
    rw [List.flatMap_cons, hclose, List.singleton_append, splitArguments, ih]
    simp [Function.comp_def, rewriteArguments, hclose]
  | case5 s ih =>
    rw [List.flatMap_cons, hcomma, List.singleton_append, splitArguments, ih]
    simp [Function.comp_def, rewriteArguments]
  | case6 s depth ih =>
    rw [List.flatMap_cons, hcomma, List.singleton_append, splitArguments, ih]
    simp [Function.comp_def, rewriteArguments, hcomma]
  | case7 depth p s h1 h2 h3 ih =>
    rw [List.flatMap_cons]
    cases hp : p.isBlank with
    | true =>
      rw [splitArguments_blank_append (hf.blank p hp).2, ih]
      simp [Function.comp_def, rewriteArguments]
    | false =>
      rw [hf.solid p hp, List.singleton_append, splitArguments, ih]
      · simp [Function.comp_def, rewriteArguments, hf.solid p hp]
      · exact h1
      · exact h2
      · exact h3

/-- The arguments of a rewritten source are the rewritten arguments. -/
theorem arguments?_flatMap (hf : Piece.Neutral f) (s : Source) :
  arguments? (s.flatMap f) = (arguments? s).map (List.map (·.flatMap f))
  := by
  fun_induction arguments? s with
  | case1 => rfl
  | case2 s =>
    rw [List.flatMap_cons, hf.solid (.char '<') rfl, List.singleton_append, arguments?,
      splitArguments_flatMap hf, Option.map_map, Option.map_map]
    congr 1
    funext found
    simp only [Function.comp_apply, rewriteArguments, List.map_eq_nil_iff, literal_flatMap hf]
    split <;> rfl
  | case3 s => simp [hf.solid (.char '>') rfl, arguments?]
  | case4 p s h1 h2 ih =>
    rw [List.flatMap_cons]
    cases hp : p.isBlank with
    | true => rw [arguments?_blank_append (hf.blank p hp).2, ih]
    | false =>
      rw [hf.solid p hp, List.singleton_append, arguments?, ih]
      · exact h1
      · exact h2

/-- The outermost level of a rewritten source. -/
theorem ofSource?_flatMap (hf : Piece.Neutral f) (s : Source) :
  Expression.ofSource? (s.flatMap f)
    = (Expression.ofSource? s).map fun e =>
        ⟨comments ((splitAtName s).1.flatMap f), e.name, e.arguments.map (·.flatMap f)⟩
  := by
  simp only [Expression.ofSource?, splitAtName_flatMap hf]
  cases hrest : (splitAtName s).2 with
  | nil => rfl
  | cons p rest =>
    obtain ⟨q, w, hw⟩ := List.exists_cons_of_ne_nil
      (mt (flatMap_eq_nil hf).mp (List.cons_ne_nil p rest))
    have hname := splitName_flatMap hf (p :: rest)
    rw [hw] at hname ⊢
    simp only [hname, arguments?_flatMap hf]
    cases arguments? (splitName (p :: rest)).2 <;> rfl

theorem leading_of_ofSource? {s : Source} {e : Expression} (h : Expression.ofSource? s = .ok e) :
  e.leading = comments (splitAtName s).1
  := by
  simp only [Expression.ofSource?] at h
  split at h
  · cases h
  · split at h
    · obtain rfl := Except.ok.inj h
      rfl
    · cases h

/-! ### Padding -/

/-- Layout in front does not change the outermost level of a source. -/
theorem ofSource?_padding_append {w : Source} (h : w.Padding) (s : Source) :
  Expression.ofSource? (w ++ s) = Expression.ofSource? s
  := by
  have hall : ∀ p ∈ w, startsNoName p = true := fun p hp => startsNoName_of_isBlank (h.blank p hp)
  simp only [Expression.ofSource?, splitAtName_eq]
  rw [List.takeWhile_append_of_pos hall, List.dropWhile_append_of_pos hall, comments_append,
    h.comments, List.nil_append]

/-- Layout at the end does not change the outermost level of a source. -/
theorem ofSource?_append_padding {w : Source} (h : w.Padding) (s : Source) :
  Expression.ofSource? (s ++ w) = Expression.ofSource? s
  := by
  have hall : ∀ p ∈ w, startsNoName p = true := fun p hp => startsNoName_of_isBlank (h.blank p hp)
  simp only [Expression.ofSource?, splitAtName_eq, List.dropWhile_append]
  cases hrest : s.dropWhile startsNoName with
  | nil => simp [List.dropWhile_eq_nil_iff.mpr hall]
  | cons p rest =>
    have hs : ¬ (s.takeWhile startsNoName).length = s.length := by
      intro hlength
      have hsplit := List.takeWhile_append_dropWhile (p := startsNoName) (l := s)
      have hcount := congrArg List.length hsplit
      rw [List.length_append, hrest, List.length_cons] at hcount
      omega
    have hname := splitName_append_blank h.blank (p :: rest)
    rw [List.cons_append] at hname
    simp [List.takeWhile_append, hs, hname, arguments?_append_blank h.blank]

end Source

end BladeStyle
