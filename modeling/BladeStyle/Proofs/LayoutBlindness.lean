import BladeStyle.Proofs.Parsing.Unlimited
import BladeStyle.Proofs.Source.Spacing

/-!
# Layout has no influence

Layout that is put into a text outside its words changes neither the errors nor the tree.  The
arguments of a spaced source are spaced at most, and nothing that parsing looks at is changed by
this: not the name, nor the number of arguments, nor the characters of a literal, nor what the
comments say.
-/

namespace BladeStyle

open Source (Spaced)

namespace Registry

/-! ### Parsing spaced sources -/

section Node

variable {f : Source → Except ParseError Style} {parent : String}

theorem argumentValue_spaced {x y : Source} (h : Spaced false x y) (hf : f y = f x)
    (index : Nat) (literal : Bool) :
  argumentValue f parent index literal y = argumentValue f parent index literal x
  := by
  rw [argumentValue, argumentValue, h.literal, hf]

theorem bindArguments_spaced (hf : ∀ x y, Spaced false x y → f y = f x) {xs ys : List Source}
    (h : List.Forall₂ (Spaced false) xs ys) (declared index : Nat) (s : Style) :
  bindArguments f parent declared index s ys = bindArguments f parent declared index s xs
  := by
  induction h generalizing index s with
  | nil => rfl
  | @cons x y xs ys hxy _ ih =>
    simp only [bindArguments, argumentValue_spaced hxy (hf x y hxy), hxy.leadingText, ih]

theorem parseNode_spaced (r : Registry) (hf : ∀ x y, Spaced false x y → f y = f x)
    {e e' : Expression} (h : e.Spaced e') :
  r.parseNode f e' = r.parseNode f e
  := by
  have hlength := h.arguments.length_eq
  simp only [parseNode, Expression.comment, h.name, h.leading, ← hlength,
    bindArguments_spaced hf h.arguments]

end Node

/-- By induction on the levels. -/
theorem parseWithin_spaced (r : Registry) (levels : Nat) {inWord : Bool} {s t : Source}
    (h : Spaced inWord s t) :
  r.parseWithin levels t = r.parseWithin levels s
  := by
  induction levels generalizing inWord s t with
  | zero => rfl
  | succ levels ih =>
    rw [parseWithin, parseWithin]
    rcases h.ofSource? with ⟨error, hs, ht⟩ | ⟨e, e', hs, ht, hspaced⟩
    · rw [hs, ht]
    · rw [hs, ht]
      exact parseNode_spaced r (fun x y hxy => ih hxy) hspaced

end Registry

/-! ### Texts without comments -/

namespace Source

theorem isNamePart_iff {c : Char} :
  isNamePart c = true ↔ c.isAlphanum = true ∨ c = '_'
  := by
  simp [isNamePart]

theorem eq_plain_of_comments_eq_nil {s : Source} (h : s.comments = []) :
  s = plain s.written
  := by
  induction s with
  | nil => rfl
  | cons p s ih =>
    cases p with
    | comment c => cases h
    | char c => exact congrArg (Piece.char c :: ·) (ih h)

/-- A text without comments is read as its characters. -/
theorem legible_plain_of_ofText? {cs : List Char} {s : Source}
    (h : ofText? (String.ofList cs) = .ok s) (hs : s.comments = []) :
  (plain cs).Legible ∧ s = plain cs
  := by
  obtain ⟨hlegible, hwritten⟩ := ofText?_eq_ok_iff.mp h
  rw [String.toList_ofList] at hwritten
  have hplain := eq_plain_of_comments_eq_nil hs
  rw [hwritten] at hplain
  exact ⟨hplain ▸ hlegible, hplain⟩

/-- A layout character opens no comment, and no comment is opened in front of it. -/
theorem precedes_of_isLayout {c d : Char}
    (h : Text.isLayout c = true ∨ Text.isLayout d = true) :
  Piece.Precedes (.char c) (.char d)
  where
  slash hc e he := by
    obtain rfl := Piece.char.inj hc
    obtain rfl := Option.some.inj he
    have hd : Text.isLayout d = true := h.resolve_left (by decide)
    exact ⟨ne_of_isLayout hd rfl, ne_of_isLayout hd rfl⟩
  line := nofun

theorem legible_plain_iff {cs : List Char} :
  (plain cs).Legible ↔ cs.IsChain fun c d => Piece.Precedes (.char c) (.char d)
  := by
  rw [← List.isChain_map]
  constructor
  · exact fun h => h.chain
  · intro h
    refine ⟨?_, h⟩
    intro p hp
    obtain ⟨c, -, rfl⟩ := mem_plain.mp hp
    trivial

/-- Layout does not bring forth comments. -/
theorem legible_plain_insert {pre w post : List Char} (hw : ∀ c ∈ w, Text.isLayout c = true)
    (h : (plain (pre ++ post)).Legible) :
  (plain (pre ++ w ++ post)).Legible
  := by
  by_cases hne : w = []
  · rwa [hne, List.append_nil]
  rw [legible_plain_iff] at h ⊢
  obtain ⟨hpre, hpost, -⟩ := List.isChain_append.mp h
  have hlayout : w.IsChain fun c d => Piece.Precedes (.char c) (.char d) := by
    apply List.Pairwise.isChain
    apply List.pairwise_of_forall_mem_list
    exact fun c hc d _ => precedes_of_isLayout (Or.inl (hw c hc))
  apply List.IsChain.append
  · apply hpre.append hlayout
    exact fun c _ d hd => precedes_of_isLayout (Or.inr (hw d (List.mem_of_mem_head? hd)))
  · exact hpost
  · intro c hc d _
    rw [List.getLast?_append_of_ne_nil _ hne] at hc
    exact precedes_of_isLayout (Or.inl (hw c (List.mem_of_mem_getLast? hc)))

end Source

/-- Layout has no influence.  Let a text have no comment in it, not even one that is not closed,
and let layout be put at a place that is not between two characters which both may belong to a
name.  Then parsing gives the same tree or the same error, in every registry. -/
theorem layout_has_no_influence (r : Registry) {pre w post : List Char} {s : Source}
    (h : Source.ofText? (String.ofList (pre ++ post)) = .ok s) (hs : s.comments = [])
    (hw : ∀ c ∈ w, c = ' ' ∨ c = '\t' ∨ c = '\n' ∨ c = '\r')
    (hplace : ∀ c d, pre.getLast? = some c → post.head? = some d →
      ¬ ((c.isAlphanum = true ∨ c = '_') ∧ (d.isAlphanum = true ∨ d = '_'))) :
  r.parse (String.ofList (pre ++ w ++ post)) = r.parse (String.ofList (pre ++ post))
  := by
  have hlayout : ∀ c ∈ w, Text.isLayout c = true := by
    intro c hc
    rcases hw c hc with rfl | rfl | rfl | rfl <;> rfl
  obtain ⟨hlegible, rfl⟩ := Source.legible_plain_of_ofText? h hs
  have hinsert : Source.ofText? (String.ofList (pre ++ w ++ post))
      = .ok (Source.plain (pre ++ w ++ post)) := by
    apply Source.ofText?_eq_ok_iff.mpr
    use Source.legible_plain_insert hlayout hlegible
    rw [Source.written_plain, String.toList_ofList]
  have hspaced : Spaced false (Source.plain (pre ++ post)) (Source.plain (pre ++ w ++ post)) := by
    simp only [Source.plain_append]
    apply Source.spaced_insert (Source.padding_plain hlayout)
    intro hlast p hp
    rw [Source.plain, List.getLast?_map, Option.map_map] at hlast
    rw [Source.plain, List.head?_map] at hp
    obtain ⟨d, hd, rfl⟩ := Option.map_eq_some_iff.mp hp
    cases hc : pre.getLast? with
    | none =>
      rw [hc] at hlast
      cases hlast
    | some c =>
      rw [hc] at hlast
      apply eq_false_of_ne_true
      intro hpart
      exact hplace c d hc hd ⟨Source.isNamePart_iff.mp hlast, Source.isNamePart_iff.mp hpart⟩
  rw [Registry.parse, Registry.parse, h, hinsert]
  apply Registry.parseWithin_spaced r _ hspaced

/-- Layout between a sign and the digits after it, and between a name that is not known and its
arguments. -/
theorem layout_has_no_influence_gradient :
  (∃ s, Source.ofText? "Gradient<Rgb<1,-2,0x1F>>" = .ok s ∧ s.comments = [])
    ∧ Style.parse "Gradient<Rgb<1,- \r\n\t2,0x1F>>" = Style.parse "Gradient<Rgb<1,-2,0x1F>>"
    ∧ (∃ s, Source.ofText? "Gradient<Red,Reddish<1>>" = .ok s ∧ s.comments = [])
    ∧ Style.parse "Gradient<Red,Reddish\n<1>>"
      = .error (.nested "Gradient" 2 (.unknownStyle "Reddish"))
  := by
  obtain ⟨s, hs, hplain⟩ : ∃ s, Source.ofText? "Gradient<Rgb<1,-2,0x1F>>" = .ok s
      ∧ s.comments = [] := ⟨_, rfl, rfl⟩
  obtain ⟨s', hs', hplain'⟩ : ∃ s, Source.ofText? "Gradient<Red,Reddish<1>>" = .ok s
      ∧ s.comments = [] := ⟨_, rfl, rfl⟩
  have hfails : Style.parse "Gradient<Red,Reddish<1>>"
      = .error (.nested "Gradient" 2 (.unknownStyle "Reddish")) := by
    decide +kernel
  refine ⟨⟨s, hs, hplain⟩, ?_, ⟨s', hs', hplain'⟩, ?_⟩
  · apply @layout_has_no_influence Registry.builtin "Gradient<Rgb<1,-".toList
      " \r\n\t".toList "2,0x1F>>".toList s hs hplain
    · show ∀ c ∈ [' ', '\r', '\n', '\t'], c = ' ' ∨ c = '\t' ∨ c = '\n' ∨ c = '\r'
      simp
    · rintro c d hc - ⟨hpart, -⟩
      have hlast : "Gradient<Rgb<1,-".toList.getLast? = some '-' := by decide
      obtain rfl := Option.some.inj (hlast.symm.trans hc)
      exact absurd hpart (by decide)
  · rw [← hfails]
    apply @layout_has_no_influence Registry.builtin "Gradient<Red,Reddish".toList
      "\n".toList "<1>>".toList s' hs' hplain'
    · show ∀ c ∈ ['\n'], c = ' ' ∨ c = '\t' ∨ c = '\n' ∨ c = '\r'
      simp
    · rintro c d - hd ⟨-, hpart⟩
      have hhead : "<1>>".toList.head? = some '<' := by decide
      obtain rfl := Option.some.inj (hhead.symm.trans hd)
      exact absurd hpart (by decide)

end BladeStyle
