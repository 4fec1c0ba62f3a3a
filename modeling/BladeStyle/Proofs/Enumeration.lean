import Mathlib.Data.List.Basic

/-!
# Values in the order of their places

A list enumerates values by their places if it gives each value once, for the place where it
stands, in the order of the places.  Enumerations of parts that lie one after the other are put
together to an enumeration of the whole.
-/

namespace BladeStyle

variable {ι κ α β γ : Type}

/-- The list gives the values in the order `r` of their places; at the place `i` stands the value
`b` if `P i b`. -/
def Enumerates (r : ι → ι → Prop) (P : ι → β → Prop) (values : List β) : Prop :=
  ∃ entries : List (ι × β), entries.map Prod.snd = values
    ∧ entries.Pairwise (fun a b => r a.1 b.1) ∧ ∀ i b, (i, b) ∈ entries ↔ P i b

namespace Enumerates

variable {r : ι → ι → Prop} {P Q : ι → β → Prop} {bs cs : List β}

theorem congr (h : Enumerates r P bs) (hPQ : ∀ i b, P i b ↔ Q i b) :
  Enumerates r Q bs
  := by
  obtain ⟨entries, hvalues, horder, hmem⟩ := h
  use entries, hvalues, horder
  intro i b
  rw [hmem, hPQ]

theorem mem_iff (h : Enumerates r P bs) {b : β} :
  b ∈ bs ↔ ∃ i, P i b
  := by
  obtain ⟨entries, rfl, -, hmem⟩ := h
  simp only [← hmem, List.mem_map, Prod.exists, exists_eq_right]

/-- An enumeration of other values at other places, if these are in the same order. -/
theorem map (h : Enumerates r P bs) {r' : κ → κ → Prop} (place : ι → κ) (f : β → γ)
    (hr : ∀ i j, r i j → r' (place i) (place j)) :
  Enumerates r' (fun k c => ∃ i b, P i b ∧ place i = k ∧ f b = c) (bs.map f)
  := by
  obtain ⟨entries, rfl, horder, hmem⟩ := h
  refine ⟨entries.map (Prod.map place f), ?_, ?_, ?_⟩
  · rw [List.map_map, List.map_map]
    rfl
  · rw [List.pairwise_map]
    apply horder.imp
    exact fun hab => hr _ _ hab
  · intro k c
    simp only [List.mem_map, Prod.exists, Prod.map_apply, Prod.mk.injEq, hmem]

theorem nil (h : ∀ i b, ¬ P i b) :
  Enumerates r P []
  := by
  use [], rfl, List.Pairwise.nil
  simpa using h

theorem singleton (i : ι) (b : β) :
  Enumerates r (fun j c => j = i ∧ c = b) [b]
  := by
  use [(i, b)], rfl, List.pairwise_singleton _ _
  simp

/-- The value at one place, if there is one. -/
theorem option (i : ι) (o : Option β) :
  Enumerates r (fun j b => j = i ∧ o = some b) o.toList
  := by
  cases o with
  | none =>
    apply nil
    simp
  | some b =>
    apply (singleton i b).congr
    simp [eq_comm]

theorem append (h : Enumerates r P bs) (h' : Enumerates r Q cs)
    (hr : ∀ i b j c, P i b → Q j c → r i j) :
  Enumerates r (fun i b => P i b ∨ Q i b) (bs ++ cs)
  := by
  obtain ⟨entries, rfl, horder, hmem⟩ := h
  obtain ⟨entries', rfl, horder', hmem'⟩ := h'
  refine ⟨entries ++ entries', List.map_append, List.pairwise_append.mpr ⟨horder, horder', ?_⟩, ?_⟩
  · rintro ⟨i, b⟩ hb ⟨j, c⟩ hc
    apply hr i b j c ((hmem i b).mp hb) ((hmem' j c).mp hc)
  · intro i b
    rw [List.mem_append, hmem, hmem']

/-- Enumerations one after the other; the places of an earlier one come before those of a later
one. -/
theorem flatten {lists : List (List β)} {P : Nat → ι → β → Prop}
    (h : ∀ n list, lists[n]? = some list → Enumerates r (P n) list)
    (hr : ∀ m n i b j c, m < n → P m i b → P n j c → r i j) :
  Enumerates r (fun i b => ∃ n < lists.length, P n i b) lists.flatten
  := by
  induction lists generalizing P with
  | nil =>
    apply nil
    simp
  | cons list lists ih =>
    have hrest := ih (P := fun n => P (n + 1)) (fun n list' hn => h (n + 1) list' hn)
      (fun m n i b j c hmn => hr (m + 1) (n + 1) i b j c (Nat.succ_lt_succ hmn))
    apply (append (h 0 list rfl) hrest _).congr
    · intro i b
      rw [List.length_cons, Nat.exists_lt_succ_left]
    · rintro i b j c hb ⟨n, -, hc⟩
      apply hr 0 (n + 1) i b j c (Nat.succ_pos n) hb hc

/-- What a function gives for the elements of a list, at the places of these. -/
theorem filterMap (f : α → Option β) (xs : List α) :
  Enumerates (· < ·) (fun (n : Nat) b => ∃ x, xs[n]? = some x ∧ f x = some b) (xs.filterMap f)
  := by
  rw [List.filterMap_eq_flatMap_toList, List.flatMap_def]
  apply (flatten (P := fun n i b => i = n ∧ xs[n]?.bind f = some b) _ _).congr
  · intro i b
    simp only [Option.bind_eq_some_iff]
    constructor
    · rintro ⟨n, -, rfl, hb⟩
      exact hb
    · rintro ⟨x, hx, hb⟩
      obtain ⟨hlt, -⟩ := List.getElem?_eq_some_iff.mp hx
      rw [List.length_map]
      exact ⟨i, hlt, rfl, x, hx, hb⟩
  · intro n list hn
    rw [List.getElem?_map] at hn
    obtain ⟨x, hx, rfl⟩ := Option.map_eq_some_iff.mp hn
    apply (option n (f x)).congr
    simp [hx]
  · rintro m n i b j c hmn ⟨rfl, -⟩ ⟨rfl, -⟩
    exact hmn

end Enumerates

end BladeStyle
