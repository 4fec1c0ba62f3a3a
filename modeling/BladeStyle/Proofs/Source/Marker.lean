import BladeStyle.Proofs.Source.Bytes
import Mathlib.Order.Bounds.Basic

/-!
# Markers among bytes

A marker is a text of ASCII characters, such as those that open and close a comment.  No byte of
another character is an ASCII character, so a marker occurs among the bytes of a text only where
its own characters stand.  Hence the first place of a marker after a stretch of text in which it
does not start is the end of this stretch.
-/

namespace BladeStyle.Text

/-- The bytes of a text stand at place `i`. -/
def OccursAt (marker : List Char) (bs : List UInt8) (i : Nat) : Prop :=
  bytes marker <+: bs.drop i

/-- A text of ASCII characters. -/
def IsAscii (cs : List Char) : Prop := ∀ c ∈ cs, c.toNat < 128

instance (cs : List Char) : Decidable (IsAscii cs) := List.decidableBAll _ cs

/-- No marker starts in a stretch of text that has `rest` after it. -/
def Lacks (marker body rest : List Char) : Prop :=
  ∀ t, t ≠ [] → t <:+ body → ¬ marker <+: t ++ rest

theorem Lacks.tail {marker body rest : List Char} {c : Char} (h : Lacks marker (c :: body) rest) :
  Lacks marker body rest
  := fun t ht hsuffix => h t ht (hsuffix.trans (List.suffix_cons c body))

/-! ### The bytes of a text -/

/-- Different texts have different bytes. -/
theorem bytes_injective {cs ds : List Char} (h : bytes cs = bytes ds) :
  cs = ds
  := by
  have hof : some (String.ofList cs) = some (String.ofList ds) := by
    rw [← fromUTF8?_bytes, ← fromUTF8?_bytes, h]
  exact String.ofList_injective (Option.some.inj hof)

theorem append_bytes_append (bs : List UInt8) (cs ds : List Char) :
  bs ++ bytes (cs ++ ds) = (bs ++ bytes cs) ++ bytes ds
  := by
  rw [bytes_append, List.append_assoc]

theorem length_append_bytes (bs : List UInt8) (cs : List Char) :
  (bs ++ bytes cs).length = bs.length + Source.byteLength cs
  := by
  rw [List.length_append, length_bytes]

/-- The bytes of a stretch of text are found at its place. -/
theorem extract_bytes {before : List UInt8} {start : Nat} (hstart : before.length = start)
    (body rest : List Char) :
  (before ++ bytes (body ++ rest)).extract start (start + Source.byteLength body) = bytes body
  := by
  rw [← hstart, List.extract_eq_take_drop, Nat.add_sub_cancel_left, List.drop_left, bytes_append,
    ← length_bytes, List.take_left]

/-- An ASCII character takes up one byte. -/
theorem utf8Size_of_lt {c : Char} (h : c.toNat < 128) :
  c.utf8Size = 1
  := by
  rw [Char.utf8Size_eq_one_iff, UInt32.le_iff_toNat_le]
  exact Nat.le_of_lt_succ h

/-- An ASCII character is its own byte. -/
theorem bytes_cons_of_lt {a : Char} (h : a.toNat < 128) (cs : List Char) :
  bytes (a :: cs) = a.val.toUInt8 :: bytes cs
  := by
  rw [bytes_cons, String.utf8EncodeChar_eq_singleton (utf8Size_of_lt h), List.singleton_append]

theorem toNat_toUInt8_of_lt {c : Char} (h : c.toNat < 128) :
  c.val.toUInt8.toNat = c.toNat
  := by
  have hmod : c.val.toUInt8.toNat = c.toNat % 256 := UInt32.toNat_toUInt8 c.val
  rw [hmod, Nat.mod_eq_of_lt (by omega)]

/-- The byte of an ASCII character is part of no other character. -/
theorem eq_of_mem_utf8EncodeChar {a c : Char} (ha : a.toNat < 128)
    (h : a.val.toUInt8 ∈ String.utf8EncodeChar c) :
  c = a
  := by
  rcases toNat_of_mem_utf8EncodeChar h with hc | ⟨hle, -⟩
  · apply Char.toNat_inj.mp
    rw [← hc, toNat_toUInt8_of_lt ha]
  · rw [toNat_toUInt8_of_lt ha] at hle
    omega

/-! ### Where a marker occurs -/

/-- Bytes in front only move the places at which a marker occurs. -/
theorem occursAt_append (marker : List Char) (bs bs' : List UInt8) (i : Nat) :
  OccursAt marker (bs ++ bs') (bs.length + i) ↔ OccursAt marker bs' i
  := by
  rw [OccursAt, List.drop_length_add_append]
  rfl

/-- A marker that is written behind some bytes occurs there. -/
theorem occursAt_length (before : List UInt8) (marker rest : List Char) :
  OccursAt marker (before ++ bytes (marker ++ rest)) before.length
  := by
  rw [OccursAt, List.drop_left, bytes_append]
  apply List.prefix_append

/-- A marker that occurs ends within the bytes. -/
theorem OccursAt.le_length {marker : List Char} {bs : List UInt8} {i : Nat}
    (h : OccursAt marker bs i) (hne : marker ≠ []) :
  i + Source.byteLength marker ≤ bs.length
  := by
  have hle := h.length_le
  have hpos : 0 < Source.byteLength marker := by
    obtain ⟨c, cs, rfl⟩ := List.exists_cons_of_ne_nil hne
    exact Nat.add_pos_left c.utf8Size_pos _
  rw [length_bytes, List.length_drop] at hle
  omega

/-- Within a character a marker occurs only at its first byte, and starts with this character. -/
theorem OccursAt.eq_head {a c : Char} {marker cs : List Char} {i : Nat}
    (h : OccursAt (a :: marker) (bytes (c :: cs)) i) (ha : a.toNat < 128) (hi : i < c.utf8Size) :
  c = a ∧ i = 0
  := by
  have hbyte : (bytes (c :: cs))[i]? = some a.val.toUInt8 := by
    rw [OccursAt, bytes_cons_of_lt ha] at h
    obtain ⟨tail, htail⟩ := h
    rw [← List.head?_drop, ← htail]
    rfl
  rw [bytes_cons, List.getElem?_append_left (by rwa [String.length_utf8EncodeChar])] at hbyte
  obtain rfl := eq_of_mem_utf8EncodeChar ha (List.mem_of_getElem? hbyte)
  rw [utf8Size_of_lt ha] at hi
  exact ⟨rfl, by omega⟩

/-- At the start of a text a marker occurs among the bytes if it does among the characters. -/
theorem occursAt_zero {marker : List Char} (h : IsAscii marker) (cs : List Char) :
  OccursAt marker (bytes cs) 0 ↔ marker <+: cs
  := by
  induction marker generalizing cs with
  | nil => simp [OccursAt, bytes]
  | cons a marker ih =>
    obtain ⟨ha, hmarker⟩ := List.forall_mem_cons.mp h
    cases cs with
    | nil => simp [OccursAt, bytes]
    | cons c cs =>
      have htail : OccursAt (a :: marker) (bytes (a :: cs)) 0 ↔ marker <+: cs := by
        rw [← ih hmarker, OccursAt, List.drop_zero, bytes_cons_of_lt ha, bytes_cons_of_lt ha,
          List.cons_prefix_cons, and_iff_right rfl]
        rfl
      rw [List.cons_prefix_cons]
      constructor
      · intro hoccurs
        obtain ⟨rfl, -⟩ := hoccurs.eq_head ha c.utf8Size_pos
        exact ⟨rfl, htail.mp hoccurs⟩
      · rintro ⟨rfl, hprefix⟩
        exact htail.mpr hprefix

/-- A marker of ASCII characters occurs within a character only at its first byte, and
only where the text starts with it. -/
theorem occursAt_cons_iff {a c : Char} {marker cs : List Char} {i : Nat}
    (h : IsAscii (a :: marker)) (hi : i < c.utf8Size) :
  OccursAt (a :: marker) (bytes (c :: cs)) i ↔ i = 0 ∧ a :: marker <+: c :: cs
  := by
  constructor
  · intro hoccurs
    obtain ⟨-, rfl⟩ := hoccurs.eq_head (h a List.mem_cons_self) hi
    exact ⟨rfl, (occursAt_zero h _).mp hoccurs⟩
  · rintro ⟨rfl, hprefix⟩
    exact (occursAt_zero h _).mpr hprefix

/-- A marker does not occur before the end of a stretch of text in which it does not start. -/
theorem Lacks.byteLength_le {a : Char} {marker body rest : List Char} {i : Nat}
    (hlacks : Lacks (a :: marker) body rest) (h : IsAscii (a :: marker))
    (hi : OccursAt (a :: marker) (bytes (body ++ rest)) i) :
  Source.byteLength body ≤ i
  := by
  induction body generalizing i with
  | nil => exact Nat.zero_le i
  | cons c body ih =>
    rw [List.cons_append] at hi
    rcases Nat.lt_or_ge i c.utf8Size with hlt | hle
    · obtain ⟨-, hprefix⟩ := (occursAt_cons_iff h hlt).mp hi
      exact absurd hprefix (hlacks (c :: body) (List.cons_ne_nil c body) List.suffix_rfl)
    · obtain ⟨j, rfl⟩ := Nat.exists_eq_add_of_le hle
      rw [bytes_cons, ← String.length_utf8EncodeChar, occursAt_append] at hi
      exact Nat.add_le_add_left (ih hlacks.tail hi) c.utf8Size

section First

variable {a : Char} {marker body : List Char} {before : List UInt8} {start : Nat}

/-- After a stretch of text in which it does not start a marker occurs first at its end. -/
theorem Lacks.isLeast {rest : List Char}
    (hlacks : Lacks (a :: marker) body (a :: marker ++ rest)) (h : IsAscii (a :: marker))
    (hstart : before.length = start) :
  IsLeast {i | start ≤ i
      ∧ OccursAt (a :: marker) (before ++ bytes (body ++ (a :: marker ++ rest))) i}
    (start + Source.byteLength body)
  := by
  subst hstart
  constructor
  · refine ⟨Nat.le_add_right _ _, ?_⟩
    rw [append_bytes_append, ← length_append_bytes]
    apply occursAt_length
  · rintro i ⟨hle, hi⟩
    obtain ⟨j, rfl⟩ := Nat.exists_eq_add_of_le hle
    rw [occursAt_append] at hi
    exact Nat.add_le_add_left (hlacks.byteLength_le h hi) _

/-- A marker that does not start in the rest of a text does not occur there. -/
theorem Lacks.not_occursAt (hlacks : Lacks (a :: marker) body []) (h : IsAscii (a :: marker))
    (hstart : before.length = start) {i : Nat} (hle : start ≤ i) :
  ¬ OccursAt (a :: marker) (before ++ bytes body) i
  := by
  intro hi
  subst hstart
  obtain ⟨j, rfl⟩ := Nat.exists_eq_add_of_le hle
  rw [occursAt_append] at hi
  have hend := hi.le_length (List.cons_ne_nil a marker)
  rw [← List.append_nil body] at hi
  have hlast := hlacks.byteLength_le h hi
  have hpos : 0 < Source.byteLength (a :: marker) := Nat.add_pos_left a.utf8Size_pos _
  rw [length_bytes] at hend
  omega

end First

end BladeStyle.Text
