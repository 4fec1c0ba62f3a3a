import BladeStyle.Kind.Packed
import BladeStyle.Style.Binding
import Mathlib.Data.Set.Function

/-!
# Packing and unpacking

Every bit of the word of a kind belongs to one part of the kind: the categories, the fixed form
flag, the variadic flag or the reference.  `Kind.getLsbD_pack` says to which.  Hence each part is
read back whatever the others are, a kind whose parts fit into their places is read back as a
whole, and a word that is unpacked and packed again loses the bits without a meaning only.
-/

namespace BladeStyle

namespace Kind

/-- The position that a kind refers to, zero if there is none. -/
def position (k : Kind) : Nat := (k.reference.map Reference.index).getD 0

/-- A kind whose set holds categories only and whose reference fits into four bits. -/
structure Packable (k : Kind) : Prop where
  named : k.categories.inter CategorySet.named = k.categories
  reference : ∀ r ∈ k.reference, r.index ≤ 15

/-- Two kinds without a common part: not both of them have categories, and so on for the flags and
the reference. -/
structure Apart (k l : Kind) : Prop where
  categories : k.categories = .empty ∨ l.categories = .empty
  variadic : k.variadic = false ∨ l.variadic = false
  fixedForm : k.fixedForm = false ∨ l.fixedForm = false
  reference : k.reference = none ∨ l.reference = none

/-- A reference comes back from its position, and so does the lack of one. -/
theorem ofNat?_position (k : Kind) :
  Reference.ofNat? k.position = k.reference
  := by
  obtain ⟨categories, variadic, fixedForm, reference⟩ := k
  cases reference with
  | none => rfl
  | some r => exact dif_pos ⟨r.one_le, r.le_max⟩

/-- A byte that gives the reference of a kind is the position of that kind. -/
theorem position_eq {k : Kind} {n : Nat} (hn : n ≤ 255) (h : k.reference = Reference.ofNat? n) :
  k.position = n
  := by
  rw [position, h, Reference.ofNat?]
  split
  · rfl
  · simp only [Option.map_none, Option.getD_none]
    omega

/-- A position fits into four bits if the index of the reference does. -/
theorem position_lt_iff {k : Kind} :
  k.position < 16 ↔ ∀ r ∈ k.reference, r.index ≤ 15
  := by
  obtain ⟨categories, variadic, fixedForm, reference⟩ := k
  cases reference with
  | none => simp [position]
  | some r => simp [position, Nat.lt_succ_iff]

/-! ### The bits of a word -/

/-- A packed kind is the union of its categories, its two flags and its reference, each at
its place. -/
theorem pack_eq (k : Kind) :
  k.pack = k.categories.bits.setWidth 32
    ||| (if k.variadic then BitVec.twoPow 32 PackedKind.variadicBit else 0)
    ||| (if k.fixedForm then BitVec.twoPow 32 PackedKind.fixedFormBit else 0)
    ||| (BitVec.ofNat 32 k.position &&& 15#32) <<< PackedKind.referenceOffset
  := by
  obtain ⟨categories, variadic, fixedForm, reference⟩ := k
  cases reference with
  | none => simp [pack, position]
  | some r => simp [pack, position]

/-- A flag sets its own bit if it is raised, and no bit otherwise. -/
theorem getLsbD_flag (b : Bool) {n : Nat} (hn : n < 32) (i : Nat) :
  (if b then BitVec.twoPow 32 n else 0).getLsbD i = (b && decide (i = n))
  := by
  cases b with
  | false => simp
  | true =>
    rw [if_pos rfl, BitVec.getLsbD_twoPow, Bool.true_and]
    simp [hn, eq_comm]

/-- The four bits of a reference stand in the highest four places. -/
theorem getLsbD_referenceWord (n i : Nat) :
  ((BitVec.ofNat 32 n &&& 15#32) <<< PackedKind.referenceOffset).getLsbD i
    = (decide (28 ≤ i) && decide (i < 32) && n.testBit (i - 28))
  := by
  have hfifteen : ∀ j, Nat.testBit 15 j = decide (j < 4) := Nat.testBit_two_pow_sub_one 4
  rw [PackedKind.referenceOffset, BitVec.getLsbD_shiftLeft, BitVec.getLsbD_and,
    BitVec.getLsbD_ofNat, BitVec.getLsbD_ofNat, hfifteen]
  by_cases hlow : i < 28
  · simp [hlow]
  · by_cases hhigh : i < 32
    · simp [hlow, hhigh, show i - 28 < 4 by omega, show i - 28 < 32 by omega]
      omega
    · simp [hhigh]

/-- To which part of a kind each bit of its word belongs. -/
theorem getLsbD_pack (k : Kind) (i : Nat) :
  k.pack.getLsbD i = if i < 26 then k.categories.bits.getLsbD i
    else if i = 26 then k.fixedForm
    else if i = 27 then k.variadic
    else decide (i < 32) && k.position.testBit (i - 28)
  := by
  rw [pack_eq, BitVec.getLsbD_or, BitVec.getLsbD_or, BitVec.getLsbD_or, BitVec.getLsbD_setWidth,
    getLsbD_flag _ (by decide), getLsbD_flag _ (by decide), getLsbD_referenceWord,
    PackedKind.variadicBit, PackedKind.fixedFormBit]
  -- A set has sixteen bits, so it leaves the places of the flags and of the reference free.
  have hhigh : 16 ≤ i → k.categories.bits.getLsbD i = false := BitVec.getLsbD_of_ge _ _
  split_ifs with hcategory hfixed hvariadic
  · simp [show i < 32 by omega, show i ≠ 26 by omega, show i ≠ 27 by omega, show ¬ 28 ≤ i by omega]
  · simp [hfixed]
  · simp [hvariadic]
  · simp [hfixed, hvariadic, hhigh (by omega), show 28 ≤ i by omega]

end Kind

/-! ### The parts of a word -/

namespace PackedKind

/-- The flags and the reference take up the bits from number 26 on. -/
theorem getLsbD_flagBits :
  ∀ i < 32, flagBits.getLsbD i = decide (26 ≤ i)
  := by
  decide

/-- The categories of a word are its lowest twenty-six bits. -/
theorem getLsbD_category (w : PackedKind) (i : Nat) :
  (category w).getLsbD i = (decide (i < 26) && w.getLsbD i)
  := by
  rw [category, BitVec.getLsbD_and, BitVec.getLsbD_not]
  by_cases hi : i < 32
  · rw [getLsbD_flagBits i hi]
    by_cases hcategory : i < 26
    · simp [hi, hcategory]
    · simp [hcategory, show 26 ≤ i by omega]
  · simp [hi, show ¬ i < 26 by omega]

/-- The reference of a word is its highest four bits. -/
theorem testBit_referenceIndex (w : PackedKind) (j : Nat) :
  (referenceIndex w).testBit j = (decide (j < 4) && w.getLsbD (28 + j))
  := by
  have hfifteen : Nat.testBit 15 j = decide (j < 4) := Nat.testBit_two_pow_sub_one 4 j
  rw [referenceIndex, BitVec.testBit_toNat, BitVec.getLsbD_and, BitVec.getLsbD_ushiftRight,
    BitVec.getLsbD_ofNat, hfifteen, referenceOffset]
  by_cases hj : j < 4
  · simp [hj, show j < 32 by omega]
  · simp [hj]

/-- A word refers to one of sixteen positions, zero among them. -/
theorem referenceIndex_lt (w : PackedKind) :
  referenceIndex w < 16
  := by
  apply Nat.lt_pow_two_of_testBit (n := 4)
  intro j hj
  rw [testBit_referenceIndex]
  simp [show ¬ j < 4 by omega]

end PackedKind

namespace Kind

/-- The categories of a kind are read back whatever its flags and its reference are. -/
theorem category_pack (k : Kind) :
  PackedKind.category k.pack = k.categories.bits.setWidth 32
  := by
  apply BitVec.eq_of_getLsbD_eq
  intro i hi
  rw [PackedKind.getLsbD_category, getLsbD_pack, BitVec.getLsbD_setWidth]
  by_cases hcategory : i < 26
  · simp [hcategory, hi]
  · simp [hcategory, BitVec.getLsbD_of_ge k.categories.bits i (by omega)]

/-- The first flag of a packed kind says whether it is repeatable. -/
theorem isVariadic_pack (k : Kind) :
  PackedKind.isVariadic k.pack = k.variadic
  := by
  rw [PackedKind.isVariadic, getLsbD_pack]
  rfl

/-- The second flag of a packed kind says whether its form is fixed. -/
theorem isFixedForm_pack (k : Kind) :
  PackedKind.isFixedForm k.pack = k.fixedForm
  := by
  rw [PackedKind.isFixedForm, getLsbD_pack]
  rfl

/-- Of the reference the lowest four bits are read back. -/
theorem referenceIndex_pack (k : Kind) :
  PackedKind.referenceIndex k.pack = k.position % 16
  := by
  apply Nat.eq_of_testBit_eq
  intro j
  have hmod : (k.position % 16).testBit j = (decide (j < 4) && k.position.testBit j) :=
    Nat.testBit_mod_two_pow k.position 4 j
  rw [PackedKind.testBit_referenceIndex, getLsbD_pack, hmod]
  by_cases hj : j < 4
  · simp [hj, show ¬ 28 + j < 26 by omega, show 28 + j ≠ 26 by omega, show 28 + j ≠ 27 by omega]
    omega
  · simp [hj]

/-- A word that is unpacked refers to the position in its highest four bits. -/
theorem position_unpack (w : PackedKind) :
  (unpack w).position = PackedKind.referenceIndex w
  := by
  have hlt := PackedKind.referenceIndex_lt w
  apply position_eq (by omega)
  rfl

/-- The named categories are the lowest fourteen bits. -/
theorem getLsbD_named (i : Nat) :
  CategorySet.named.bits.getLsbD i = decide (i < 14)
  := by
  have hnamed : CategorySet.named.bits = BitVec.ofNat 16 (2 ^ 14 - 1) := rfl
  rw [hnamed, BitVec.getLsbD_ofNat, Nat.testBit_two_pow_sub_one]
  by_cases hi : i < 14
  · simp [hi, show i < 16 by omega]
  · simp [hi]

/-- Unpacking a word keeps its named categories and drops the others. -/
theorem getLsbD_categories_unpack (w : PackedKind) (i : Nat) :
  (unpack w).categories.bits.getLsbD i = (decide (i < 14) && w.getLsbD i)
  := by
  have hunpack : (unpack w).categories.bits
      = (PackedKind.category w).setWidth 16 &&& CategorySet.named.bits := rfl
  rw [hunpack, BitVec.getLsbD_and, BitVec.getLsbD_setWidth, PackedKind.getLsbD_category,
    getLsbD_named]
  by_cases hi : i < 14
  · simp [hi, show i < 16 by omega, show i < 26 by omega]
  · simp [hi]

/-- A kind whose parts fit into their places is read back from its word. -/
theorem unpack_pack {k : Kind} (h : k.Packable) :
  unpack k.pack = k
  := by
  rw [unpack, category_pack, isVariadic_pack, isFixedForm_pack, referenceIndex_pack,
    Nat.mod_eq_of_lt (position_lt_iff.mpr h.reference), ofNat?_position,
    BitVec.setWidth_setWidth_of_le _ (by decide), BitVec.setWidth_eq, h.named]

/-- A word that is unpacked and packed again loses the bits without a meaning only. -/
theorem getLsbD_pack_unpack (w : PackedKind) (i : Nat) :
  (unpack w).pack.getLsbD i = (w.getLsbD i && !decide (14 ≤ i ∧ i ≤ 25))
  := by
  rw [getLsbD_pack, getLsbD_categories_unpack, position_unpack, PackedKind.testBit_referenceIndex]
  split_ifs with hcategory hfixed hvariadic
  · by_cases hi : i < 14
    · simp [hi]
    · simp [hi, show i ≤ 25 by omega]
      omega
  · subst hfixed
    simp [unpack, PackedKind.isFixedForm, PackedKind.fixedFormBit]
  · subst hvariadic
    simp [unpack, PackedKind.isVariadic, PackedKind.variadicBit]
  · have hbit : 28 + (i - 28) = i := by omega
    by_cases hi : i < 32
    · simp [hi, hbit, show i - 28 < 4 by omega, show ¬ i ≤ 25 by omega]
    · simp [hi, BitVec.getLsbD_of_ge w i (by omega)]

/-- Kinds without a common part have words without a common bit. -/
theorem pack_and_pack {k l : Kind} (h : k.Apart l) :
  k.pack &&& l.pack = 0
  := by
  have hcategories : ∀ i, (k.categories.bits.getLsbD i && l.categories.bits.getLsbD i) = false := by
    intro i
    rcases h.categories with hk | hl
    · simp [hk, CategorySet.empty]
    · simp [hl, CategorySet.empty]
  have hposition : ∀ i, (k.position.testBit i && l.position.testBit i) = false := by
    intro i
    rcases h.reference with hk | hl
    · simp [position, hk]
    · simp [position, hl]
  apply BitVec.eq_of_getLsbD_eq
  intro i hi
  rw [BitVec.getLsbD_and, getLsbD_pack, getLsbD_pack]
  split_ifs
  · simpa using hcategories i
  · simpa using Bool.and_eq_false_iff.mpr h.fixedForm
  · simpa using Bool.and_eq_false_iff.mpr h.variadic
  · simpa [hi] using hposition (i - 28)

/-! ### The kinds of parameters and of nodes -/

/-- A kind made of one category is packable. -/
theorem packable_of (c : Category) :
  (of c).Packable
  where
  named := by cases c <;> decide
  reference := nofun

/-- A kind that accepts some of the categories of nodes is packable. -/
theorem packable_accepting (s : CategorySet) :
  (accepting (s.inter CategorySet.nodes)).Packable
  where
  named := by
    have hnodes : CategorySet.nodes.bits &&& CategorySet.named.bits = CategorySet.nodes.bits := rfl
    simp only [accepting, CategorySet.inter, BitVec.and_assoc, hnodes]
  reference := nofun

/-- A reference is capped below the bound of a word. -/
theorem Packable.referring {k : Kind} (h : k.Packable) (index : Nat) :
  { k with reference := Reference.capped? index }.Packable
  where
  named := h.named
  reference := by
    have hcap : min index Reference.cap ≤ 8 := Nat.min_le_right _ _
    apply position_lt_iff.mp
    rw [position_eq (n := min index Reference.cap) (by omega) rfl]
    omega

end Kind

/-- A parameter as it is declared: a literal or a composite one, which may then be made repeatable
and given a reference. -/
inductive Param.Constructed : Param Style → Prop
  | number (name : String) (initial : Int) : Constructed (ofNumber name initial)
  | bits (name : String) (initial : Int) : Constructed (ofBits name initial)
  | bool (name : String) (initial : Bool) : Constructed (ofBool name initial)
  | style (name : String) (accepts : CategorySet) (initial : Option Style) :
      Constructed (ofStyle name accepts initial)
  | variadic {p : Param Style} (h : Constructed p) : Constructed p.asVariadic
  | referring {p : Param Style} (h : Constructed p) (index : Nat) :
      Constructed (p.referringTo index)

/-- Every parameter that can be declared has a packable kind. -/
theorem Param.Constructed.packable {p : Param Style} (h : p.Constructed) :
  p.kind.Packable
  := by
  induction h with
  | number | bits | bool => apply Kind.packable_of
  | style name accepts => apply Kind.packable_accepting
  | variadic h ih => exact ⟨ih.named, ih.reference⟩
  | referring h index ih => exact ih.referring index

/-- Every node has a packable kind. -/
theorem Style.packable_kind (s : Style) :
  s.kind.Packable
  := by
  have hcategory := Kind.packable_of s.category
  exact ⟨hcategory.named, hcategory.reference⟩

namespace Kind

/-- Every kind of a parameter or of a node is read back from its word, a word is written back
except for the bits without a meaning, and no part of a kind takes a bit of another part. -/
theorem packing_round_trips :
  (∀ k : Kind, k.Packable → unpack k.pack = k)
    ∧ (∀ p : Param Style, p.Constructed → p.kind.Packable)
    ∧ (∀ s : Style, s.kind.Packable)
    ∧ (∀ (w : PackedKind) (i : Nat),
      (unpack w).pack.getLsbD i = (w.getLsbD i && !decide (14 ≤ i ∧ i ≤ 25)))
    ∧ Set.InjOn pack {k | k.Packable}
    ∧ (∀ k : Kind, PackedKind.category k.pack = k.categories.bits.setWidth 32
      ∧ PackedKind.isVariadic k.pack = k.variadic
      ∧ PackedKind.isFixedForm k.pack = k.fixedForm
      ∧ PackedKind.referenceIndex k.pack = k.position % 16)
    ∧ ∀ k l : Kind, k.Apart l → k.pack &&& l.pack = 0
  := by
  have hinverse : Set.LeftInvOn unpack pack {k | k.Packable} := fun k hk => unpack_pack hk
  refine ⟨fun k => unpack_pack, fun p => Param.Constructed.packable, Style.packable_kind,
    getLsbD_pack_unpack, hinverse.injOn, ?_, fun k l => pack_and_pack⟩
  intro k
  exact ⟨k.category_pack, k.isVariadic_pack, k.isFixedForm_pack, k.referenceIndex_pack⟩

/-- The repeatable tail of a list of colours that refers back to the second parameter. -/
def colorTail : Param Style :=
  ((Param.ofStyle "Color" (.singleton .color) none).asVariadic).referringTo 2

/-- Of a word with all bits set the categories, the flags and the reference stay. -/
theorem packing_round_trips_colorTail :
  unpack colorTail.kind.pack = colorTail.kind
    ∧ colorTail.kind.pack = 0x28000080#32
    ∧ (unpack 0xffffffff#32).pack = 0xfc003fff#32
  := by
  obtain ⟨hunpack, hparam, -, hword, -⟩ := packing_round_trips
  have hconstructed : colorTail.Constructed := .referring (.variadic (.style _ _ _)) 2
  refine ⟨hunpack _ (hparam _ hconstructed), by decide, ?_⟩
  apply BitVec.eq_of_getLsbD_eq
  intro i hi
  rw [hword]
  revert i
  decide

end Kind

end BladeStyle
