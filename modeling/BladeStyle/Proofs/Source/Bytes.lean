import BladeStyle.Proofs.Source.Region

/-!
# The bytes of a source

In UTF-8 a layout character is a single byte that no other character contains, and a comment
takes up whole characters.  So the literal of an argument can be read off the bytes of its
text: what is left after the layout bytes and those inside comments are deleted is again the
encoding of a text, that of the literal.
-/

namespace BladeStyle

namespace Text

/-- The bytes of a text in UTF-8. -/
def bytes (cs : List Char) : List UInt8 := cs.flatMap String.utf8EncodeChar

theorem bytes_append (cs ds : List Char) :
  bytes (cs ++ ds) = bytes cs ++ bytes ds
  := List.flatMap_append

theorem bytes_cons (c : Char) (cs : List Char) :
  bytes (c :: cs) = String.utf8EncodeChar c ++ bytes cs
  := List.flatMap_cons

theorem length_bytes (cs : List Char) :
  (bytes cs).length = Source.byteLength cs
  := by
  induction cs with
  | nil => rfl
  | cons c cs ih =>
    rw [bytes_cons, List.length_append, String.length_utf8EncodeChar, ih]
    rfl

theorem fromUTF8?_bytes (cs : List Char) :
  String.fromUTF8? (bytes cs).toByteArray = some (String.ofList cs)
  := by
  rw [String.fromUTF8?]
  apply dif_pos (String.ofList cs).isValidUTF8

/-- Space, tab, line feed and carriage return. -/
def isLayoutByte (b : UInt8) : Bool := b = 32 || b = 9 || b = 10 || b = 13

theorem isLayout_eq (c : Char) :
  isLayout c = (c.toNat = 32 || c.toNat = 9 || c.toNat = 10 || c.toNat = 13)
  := by
  simp only [isLayout, Char.ext_iff, ← UInt32.toNat_inj]
  rfl

theorem isLayoutByte_eq (b : UInt8) :
  isLayoutByte b = (b.toNat = 32 || b.toNat = 9 || b.toNat = 10 || b.toNat = 13)
  := by
  simp only [isLayoutByte, ← UInt8.toNat_inj]
  rfl

/-- An ASCII character is a byte, and no byte of another character is an ASCII one. -/
theorem toNat_of_mem_utf8EncodeChar {c : Char} {b : UInt8} (h : b ∈ String.utf8EncodeChar c) :
  b.toNat = c.toNat ∨ 128 ≤ b.toNat ∧ 128 ≤ c.toNat
  := by
  have htoNat : ∀ n, n < 256 → (UInt8.ofNat n).toNat = n := by
    intro n hn
    rw [UInt8.toNat_ofNat', Nat.mod_eq_of_lt hn]
  have hc : c.toNat = c.val.toNat := rfl
  rw [String.utf8EncodeChar] at h
  split_ifs at h
  · left
    obtain rfl := List.mem_singleton.mp h
    rw [htoNat _ (by omega), hc]
  all_goals
    right
    simp only [List.mem_cons, List.not_mem_nil, or_false] at h
    rcases h with rfl | rfl | rfl | rfl <;> rw [htoNat _ (by omega)] <;> omega

/-- The bytes of a layout character are layout, and those of any other character are not. -/
theorem isLayoutByte_of_mem {c : Char} {b : UInt8} (h : b ∈ String.utf8EncodeChar c) :
  isLayoutByte b = isLayout c
  := by
  rw [isLayoutByte_eq, isLayout_eq]
  rcases toNat_of_mem_utf8EncodeChar h with h | ⟨hb, hc⟩
  · rw [h]
  · grind

/-- Layout can be deleted before or after a text is encoded. -/
theorem filter_bytes (cs : List Char) :
  (bytes cs).filter (!isLayoutByte ·) = bytes (cs.filter (!isLayout ·))
  := by
  induction cs with
  | nil => rfl
  | cons c cs ih =>
    rw [bytes_cons, List.filter_append, ih]
    cases hc : isLayout c with
    | true =>
      have hdeleted : (String.utf8EncodeChar c).filter (!isLayoutByte ·) = [] := by
        apply List.filter_eq_nil_iff.mpr
        intro b hb
        simp [isLayoutByte_of_mem hb, hc]
      rw [hdeleted, List.nil_append, List.filter_cons_of_neg (by simp [hc])]
    | false =>
      have hkept : (String.utf8EncodeChar c).filter (!isLayoutByte ·)
          = String.utf8EncodeChar c := by
        apply List.filter_eq_self.mpr
        intro b hb
        simp [isLayoutByte_of_mem hb, hc]
      rw [hkept, List.filter_cons_of_pos (by simp [hc]), bytes_cons]

end Text

open Text

/-- A byte that lies in one of several comments. -/
def Covered (spans : List Span) (i : Nat) : Prop := ∃ span ∈ spans, span.start ≤ i ∧ i < span.stop

instance (spans : List Span) : DecidablePred (Covered spans) :=
  fun i => inferInstanceAs (Decidable (∃ span ∈ spans, span.start ≤ i ∧ i < span.stop))

/-- The bytes of a stretch of text that starts at byte `i`, without layout and without those
that lie in one of the comments. -/
def keptBytes (spans : List Span) (i : Nat) : List UInt8 → List UInt8
  | [] => []
  | b :: bs =>
    if isLayoutByte b ∨ Covered spans i then keptBytes spans (i + 1) bs
    else b :: keptBytes spans (i + 1) bs

section KeptBytes

variable {spans : List Span}

theorem keptBytes_append (i : Nat) (bs bs' : List UInt8) :
  keptBytes spans i (bs ++ bs') = keptBytes spans i bs ++ keptBytes spans (i + bs.length) bs'
  := by
  induction bs generalizing i with
  | nil => rfl
  | cons b bs ih =>
    rw [List.cons_append, keptBytes, keptBytes, ih, List.length_cons, Nat.add_right_comm,
      ← Nat.add_assoc]
    split <;> rfl

/-- Nothing is kept of a comment. -/
theorem keptBytes_of_covered {i : Nat} {bs : List UInt8}
    (h : ∀ j, i ≤ j → j < i + bs.length → Covered spans j) :
  keptBytes spans i bs = []
  := by
  induction bs generalizing i with
  | nil => rfl
  | cons b bs ih =>
    rw [List.length_cons] at h
    rw [keptBytes, if_pos (Or.inr (h i (Nat.le_refl i) (by omega)))]
    apply ih
    intro j hj hlt
    apply h j <;> omega

/-- Outside comments all but layout is kept. -/
theorem keptBytes_of_not_covered {i : Nat} {bs : List UInt8}
    (h : ∀ j, i ≤ j → j < i + bs.length → ¬ Covered spans j) :
  keptBytes spans i bs = bs.filter (!isLayoutByte ·)
  := by
  induction bs generalizing i with
  | nil => rfl
  | cons b bs ih =>
    rw [List.length_cons] at h
    have hrest : keptBytes spans (i + 1) bs = bs.filter (!isLayoutByte ·) := by
      apply ih
      intro j hj hlt
      apply h j <;> omega
    have hfirst := h i (Nat.le_refl i) (by omega)
    rw [keptBytes, hrest, List.filter_cons]
    cases isLayoutByte b <;> simp [hfirst]

/-- Only the comments from byte `i` on matter. -/
theorem keptBytes_congr {spans' : List Span} {i : Nat} (bs : List UInt8)
    (h : ∀ j, i ≤ j → (Covered spans j ↔ Covered spans' j)) :
  keptBytes spans i bs = keptBytes spans' i bs
  := by
  induction bs generalizing i with
  | nil => rfl
  | cons b bs ih =>
    have hrest : keptBytes spans (i + 1) bs = keptBytes spans' (i + 1) bs := by
      apply ih
      intro j hj
      apply h j (by omega)
    simp only [keptBytes, hrest, h i (Nat.le_refl i)]

end KeptBytes

namespace Source

theorem literal_cons_char (c : Char) (s : Source) :
  literal (.char c :: s) = [c].filter (!isLayout ·) ++ literal s
  := List.filter_append [c] s.chars

theorem not_covered_spansFrom {start i : Nat} (s : Source) (h : i < start) :
  ¬ Covered (s.spansFrom start) i
  := by
  rintro ⟨span, hspan, hle, -⟩
  have hbounds := bounds_of_mem_spansFrom hspan
  omega

/-- What is kept of a source is its literal. -/
theorem keptBytes_written (start : Nat) (s : Source) :
  keptBytes (s.spansFrom start) start (bytes s.written) = bytes s.literal
  := by
  induction s generalizing start with
  | nil => rfl
  | cons p s ih =>
    rw [written_cons, bytes_append, keptBytes_append, length_bytes]
    cases p with
    | char c =>
      have hfirst : keptBytes (spansFrom start (.char c :: s)) start (bytes [c])
          = bytes ([c].filter (!isLayout ·)) := by
        rw [keptBytes_of_not_covered, filter_bytes]
        intro j _ hlt
        rw [length_bytes] at hlt
        apply not_covered_spansFrom s hlt
      rw [literal_cons_char, bytes_append, ← hfirst, ← ih]
      rfl
    | comment c =>
      have hfirst : keptBytes (spansFrom start (.comment c :: s)) start (bytes c.written) = [] := by
        apply keptBytes_of_covered
        intro j hj hlt
        rw [length_bytes] at hlt
        apply Exists.intro ⟨start, start + byteLength c.written, c⟩
        exact ⟨List.mem_cons_self, hj, hlt⟩
      have hrest : ∀ j, start + byteLength c.written ≤ j
          → (Covered (spansFrom start (.comment c :: s)) j
            ↔ Covered (spansFrom (start + byteLength c.written) s) j) := by
        intro j hj
        simp only [Covered, spansFrom, Piece.written, List.exists_mem_cons_iff]
        apply or_iff_right
        omega
      simp only [Piece.written]
      rw [hfirst, List.nil_append, keptBytes_congr _ hrest, ih]
      rfl

end Source

end BladeStyle
