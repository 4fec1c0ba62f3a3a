import BladeStyle.Literal
import Mathlib.Data.List.Basic
import Mathlib.Data.List.TakeWhile

/-!
# Literals read back

A number of 32 bits, sixteen bits and a truth value are read back from the literals that
they are written as.
-/

namespace BladeStyle.Literal

/-! ### Words -/

/-- A word does not occur in a text that lacks one of its characters. -/
theorem occurs_eq_false {word cs : List Char} {c : Char} (hw : c ∈ word) (hc : c ∉ cs) :
  occurs word cs = false
  := by
  induction cs with
  | nil =>
    cases word with
    | nil => cases hw
    | cons d word => rfl
  | cons d cs ih =>
    rw [List.mem_cons, not_or] at hc
    rw [occurs, ih hc.2, Bool.or_false, Bool.eq_false_iff]
    intro h
    obtain ⟨ds, hds⟩ := List.isPrefixOf_iff_prefix.mp h
    have hmem : c ∈ d :: cs := by
      rw [← hds]
      apply List.mem_append_left _ hw
    rcases List.mem_cons.mp hmem with rfl | h'
    · exact hc.1 rfl
    · exact hc.2 h'

/-- A text without the letter that both words have in common holds a number. -/
theorem read_eq_readInteger {cs : List Char} (h : ∀ c ∈ cs, c.toLower ≠ 'e') :
  read cs = readInteger cs
  := by
  have he : 'e' ∉ cs.map Char.toLower := by
    intro hmem
    obtain ⟨c, hc, hlower⟩ := List.mem_map.mp hmem
    exact h c hc hlower
  have ht : mentions ['t', 'r', 'u', 'e'] cs = false := occurs_eq_false (c := 'e') (by simp) he
  have hf : mentions ['f', 'a', 'l', 's', 'e'] cs = false :=
    occurs_eq_false (c := 'e') (by simp) he
  simp [read, ht, hf]

/-! ### Digits -/

/-- The number with the given digits, the highest first. -/
def digitsValue (base : Nat) (digits : List Char) : Nat :=
  digits.foldl (fun n c => n * base + digitValue c) 0

/-- Reading with a greatest magnitude on the way gives the number, up to that magnitude. -/
theorem readDigits_eq {base : Nat} (h : 0 < base) (digits : List Char) :
  readDigits base digits = min (digitsValue base digits) magnitudeMax
  := by
  have key : ∀ n, digits.foldl (fun n c => min (n * base + digitValue c) magnitudeMax)
      (min n magnitudeMax)
      = min (digits.foldl (fun n c => n * base + digitValue c) n) magnitudeMax := by
    induction digits with
    | nil =>
      intro n
      rfl
    | cons c digits ih =>
      intro n
      rw [List.foldl_cons, List.foldl_cons, ← ih]
      congr 1
      rcases Nat.le_total n magnitudeMax with hn | hn
      · rw [Nat.min_eq_left hn]
      · have hle : magnitudeMax ≤ magnitudeMax * base := Nat.le_mul_of_pos_right _ h
        have hle' : magnitudeMax * base ≤ n * base := Nat.mul_le_mul_right _ hn
        rw [Nat.min_eq_right hn]
        omega
  apply key 0

theorem digitValue_of_isDigit {c : Char} (h : c.isDigit = true) :
  digitValue c = c.toNat - '0'.toNat
  := by
  simp [digitValue, h]

/-- Decimal digits have the value that the library gives them. -/
theorem digitsValue_of_isDigit {digits : List Char} (h : ∀ c ∈ digits, c.isDigit = true) :
  digitsValue 10 digits = Nat.ofDigitChars 10 digits 0
  := by
  rw [digitsValue, Nat.ofDigitChars_eq_foldl]
  generalize 0 = n
  induction digits generalizing n with
  | nil => rfl
  | cons c digits ih =>
    obtain ⟨hc, hdigits⟩ := List.forall_mem_cons.mp h
    rw [List.foldl_cons, List.foldl_cons, ih hdigits, digitValue_of_isDigit hc, Nat.mul_comm]

theorem isDigit_of_mem_toDigits {n : Nat} {c : Char} (h : c ∈ Nat.toDigits 10 n) :
  c.isDigit = true
  := Nat.isDigit_of_mem_toDigits (by decide) (by decide) h

/-- The decimal digits of a number have that number as their value. -/
theorem digitsValue_toDigits (n : Nat) :
  digitsValue 10 (Nat.toDigits 10 n) = n
  := by
  rw [digitsValue_of_isDigit fun c hc => isDigit_of_mem_toDigits hc]
  apply Nat.ofDigitChars_ten_toDigits

/-- The decimal digits of a number that is not zero do not start with a zero. -/
theorem head?_toDigits {n : Nat} (h : n ≠ 0) :
  (Nat.toDigits 10 n).head? ≠ some '0'
  := by
  induction n using Nat.strongRecOn with
  | ind n ih =>
    by_cases hn : n < 10
    · have key : ∀ m < 10, m ≠ 0 → m.digitChar ≠ '0' := by decide
      rw [Nat.toDigits_of_lt_base hn]
      simpa using key n hn h
    · rw [Nat.toDigits_of_base_le (by decide) (by omega),
        List.head?_append_of_ne_nil _ Nat.toDigits_ne_nil]
      apply ih (n / 10) <;> omega

/-- A text that does not start with a zero is read as decimal digits. -/
theorem magnitude?_cons_of_ne {c : Char} (h : c ≠ '0') (cs : List Char) :
  magnitude? (c :: cs)
    = match (c :: cs).takeWhile Char.isDigit with
      | [] => none
      | digits => some (readDigits 10 digits)
  := by
  unfold magnitude?
  split
  · simp_all
  · simp_all
  · simp_all
  · simp_all
  · rfl

/-- The decimal digits of a number are read as that number, up to the greatest magnitude. -/
theorem magnitude?_toDigits {n : Nat} (h : n ≤ magnitudeMax) :
  magnitude? (Nat.toDigits 10 n) = some n
  := by
  by_cases hn : n = 0
  · subst hn
    rfl
  · have hhead := head?_toDigits hn
    have hdigits : ∀ c ∈ Nat.toDigits 10 n, c.isDigit = true := fun c => isDigit_of_mem_toDigits
    have hvalue := digitsValue_toDigits n
    obtain ⟨c, cs, e⟩ := List.exists_cons_of_ne_nil (Nat.toDigits_ne_nil (n := n) (b := 10))
    rw [e] at hhead hdigits hvalue ⊢
    rw [magnitude?_cons_of_ne (by simpa using hhead), List.takeWhile_eq_self_iff.mpr hdigits]
    simp only [readDigits_eq (Nat.succ_pos 9), hvalue, Nat.min_eq_left h]

/-! ### Numbers -/

/-- A number of thirty-two bits is not clamped. -/
theorem clamp32_of_mem {n : Int} (hmin : -2147483648 ≤ n) (hmax : n ≤ 2147483647) :
  clamp32 n = n
  := by
  rw [clamp32]
  omega

/-- A number is written with digits and a minus sign. -/
theorem mem_writeNumber {n : Int} {c : Char} (h : c ∈ writeNumber n) :
  c.isDigit = true ∨ c = '-'
  := by
  cases n with
  | ofNat n =>
    left
    apply isDigit_of_mem_toDigits h
  | negSucc n =>
    rcases List.mem_cons.mp h with rfl | h
    · right
      rfl
    · left
      apply isDigit_of_mem_toDigits h

theorem toLower_of_isDigit {c : Char} (h : c.isDigit = true) :
  c.toLower = c
  := by
  refine dif_neg ?_
  rintro ⟨hA, -⟩
  simp only [Char.isDigit, Bool.and_eq_true, decide_eq_true_eq] at h
  exact absurd (UInt32.le_trans hA h.2) (by decide)

/-- A text that starts with a digit has no sign. -/
theorem readInteger_of_isDigit {c : Char} (h : c.isDigit = true) (cs : List Char) :
  readInteger (c :: cs) = clamp32 ((magnitude? (c :: cs)).getD 0 : Nat)
  := by
  unfold readInteger
  split
  · simp_all
  · simp_all
  · rfl

/-- A number of 32 bits is read back from its decimal form. -/
theorem read_writeNumber {n : Int} (hmin : -2147483648 ≤ n) (hmax : n ≤ 2147483647) :
  read (writeNumber n) = n
  := by
  rw [read_eq_readInteger]
  · cases n with
    | ofNat n =>
      have hn' : (n : Int) ≤ 2147483647 := hmax
      have hn : n ≤ magnitudeMax := by
        rw [magnitudeMax]
        omega
      obtain ⟨c, cs, e⟩ := List.exists_cons_of_ne_nil (Nat.toDigits_ne_nil (n := n) (b := 10))
      have hc : c.isDigit = true := isDigit_of_mem_toDigits (n := n) (by simp [e])
      rw [writeNumber, e, readInteger_of_isDigit hc, ← e, magnitude?_toDigits hn]
      apply clamp32_of_mem hmin hmax
    | negSucc n =>
      have hn : n + 1 ≤ magnitudeMax := by
        rw [magnitudeMax]
        omega
      rw [writeNumber, readInteger, magnitude?_toDigits hn]
      apply clamp32_of_mem hmin hmax
  · intro c hc
    rcases mem_writeNumber hc with h | rfl
    · rw [toLower_of_isDigit h]
      rintro rfl
      cases h
    · decide

/-! ### Bits and truth values -/

/-- The binary digits of a number, the lowest first, give the number up to their width. -/
theorem readBits_testBit (width n : Nat) :
  readBits ((List.range width).map fun i => if n.testBit i then '1' else '0')
    = (BitVec.ofNat width n).toNat
  := by
  rw [BitVec.toNat_ofNat]
  induction width generalizing n with
  | zero => simp [readBits, Nat.mod_one]
  | succ width ih =>
    rw [List.range_succ_eq_map, List.map_cons, List.map_map, readBits]
    have hshift : (fun i => if n.testBit i then '1' else '0') ∘ Nat.succ
        = fun i => if (n / 2).testBit i then '1' else '0' := by
      funext i
      simp [Nat.testBit_succ]
    have hdigit : digitValue (if n.testBit 0 then '1' else '0') = n % 2 := by
      rw [Nat.testBit_zero]
      rcases Nat.mod_two_eq_zero_or_one n with h | h
      · simp [h, digitValue]
      · simp [h, digitValue]
    rw [hshift, ih, hdigit, Nat.pow_succ', Nat.mod_mul]

/-- A word is written with zeros and ones after its mark. -/
theorem mem_writeBits {bits : BitVec 16} {c : Char} (h : c ∈ writeBits bits) :
  c = '0' ∨ c = '1' ∨ c = 'b'
  := by
  simp only [writeBits, List.mem_cons, List.mem_map] at h
  rcases h with rfl | rfl | ⟨i, -, rfl⟩
  · simp
  · simp
  · split <;> simp

/-- The binary digits at the front of a text, of which there are few enough. -/
theorem magnitude?_binary {digits : List Char} (hne : digits ≠ [])
    (h : ∀ c ∈ digits, isBinaryDigit c = true) (hlength : digits.length ≤ binaryWidth) :
  magnitude? ('0' :: 'b' :: digits) = some (readBits digits)
  := by
  rw [magnitude?, List.takeWhile_eq_self_iff.mpr h]
  obtain ⟨d, ds, rfl⟩ := List.exists_cons_of_ne_nil hne
  simp only [List.take_of_length_le hlength]

/-- Sixteen bits are read back as the number that they form. -/
theorem read_writeBits (bits : BitVec 16) :
  read (writeBits bits) = bits.toNat
  := by
  rw [read_eq_readInteger]
  · have hmagnitude : magnitude? (writeBits bits) = some bits.toNat := by
      rw [writeBits, magnitude?_binary]
      · apply congrArg some
        apply (readBits_testBit 16 bits.toNat).trans
        rw [BitVec.ofNat_toNat, BitVec.setWidth_eq]
      · simp
      · intro c hc
        obtain ⟨i, -, rfl⟩ := List.mem_map.mp hc
        split <;> rfl
      · simp [binaryWidth]
    rw [writeBits, readInteger_of_isDigit (by decide), ← writeBits, hmagnitude]
    have hlt := bits.isLt
    apply clamp32_of_mem
    · simp
    · simp
      omega
  · intro c hc
    rcases mem_writeBits hc with rfl | rfl | rfl <;> decide

/-- A truth value is read back as one or zero. -/
theorem read_writeBool (value : Bool) :
  read (writeBool value) = if value then 1 else 0
  := by
  cases value <;> decide

end BladeStyle.Literal
