import BladeStyle.Proofs.Literal.Written
import Mathlib.Data.Nat.Digits.Lemmas

/-!
# Numerals

A numeral is a mark and the longest run of digits after it.  There are four forms of numerals,
and the first one that a text starts with decides what the text stands for: after `0b` binary
digits, the lowest first, of which thirty-two count; after `0x` hexadecimal digits; after `0`
octal digits, perhaps none; and decimal digits.  What is read is this number with the sign in
front of it, as an integer without bounds, and only then the nearest integer of 32 bits.
-/

namespace BladeStyle.Literal

/-! ### Digits -/

/-- A character is a digit in a base and has a value.  Letters count in either case. -/
def IsDigit (base : Nat) (c : Char) (d : Nat) : Prop := d < base ∧ c.toLower = Nat.digitChar d

/-- A test for the digits in a base. -/
def Tests (base : Nat) (test : Char → Bool) : Prop :=
  ∀ c d, IsDigit base c d ↔ test c = true ∧ digitValue c = d

/-- Only ASCII letters have another case. -/
theorem toLower_of_le {c : Char} (h : 128 ≤ c.toNat) :
  c.toLower = c
  := by
  refine dif_neg ?_
  rintro ⟨-, hZ⟩
  have hle : c.toNat ≤ 90 := hZ
  omega

/-- The digits of the bases up to sixteen are ASCII characters. -/
theorem toNat_digitChar_lt {d : Nat} (h : d < 16) :
  (Nat.digitChar d).toNat < 128
  := by
  revert d
  decide

/-- A test for digits can be checked on the characters of ASCII. -/
theorem tests_of_ascii {base : Nat} {test : Char → Bool} (hbase : base ≤ 16)
    (htest : ∀ c, test c = true → c.toNat < 128)
    (hdigit : ∀ n < 128, ∀ d < base, (Char.ofNat n).toLower = Nat.digitChar d →
      test (Char.ofNat n) = true ∧ digitValue (Char.ofNat n) = d)
    (hvalue : ∀ n < 128, test (Char.ofNat n) = true → digitValue (Char.ofNat n) < base
      ∧ (Char.ofNat n).toLower = Nat.digitChar (digitValue (Char.ofNat n))) :
  Tests base test
  := by
  intro c d
  constructor
  · rintro ⟨hd, hlower⟩
    have hc : c.toNat < 128 := by
      by_contra hle
      rw [toLower_of_le (Nat.le_of_not_lt hle)] at hlower
      apply hle
      rw [hlower]
      apply toNat_digitChar_lt (Nat.lt_of_lt_of_le hd hbase)
    have h := hdigit c.toNat hc d hd
    rw [Char.ofNat_toNat] at h
    exact h hlower
  · rintro ⟨hc, rfl⟩
    have h := hvalue c.toNat (htest c hc)
    rw [Char.ofNat_toNat] at h
    exact h hc

/-- The test for binary digits holds of the digits in base two and of no others. -/
theorem tests_binary :
  Tests 2 isBinaryDigit
  := by
  apply tests_of_ascii
  · decide
  · intro c hc
    rcases (Bool.or_eq_true _ _).mp hc with h | h
    · obtain rfl := of_decide_eq_true h
      decide
    · obtain rfl := of_decide_eq_true h
      decide
  · decide +kernel
  · decide +kernel

/-- The test for octal digits holds of the digits in base eight and of no others. -/
theorem tests_octal :
  Tests 8 isOctalDigit
  := by
  apply tests_of_ascii
  · decide
  · intro c hc
    have hle : c.toNat ≤ 55 := of_decide_eq_true ((Bool.and_eq_true _ _).mp hc).2
    omega
  · decide +kernel
  · decide +kernel

theorem toNat_lt_of_isDigit {c : Char} (h : c.isDigit = true) :
  c.toNat < 128
  := by
  have hle : c.toNat ≤ 57 := of_decide_eq_true ((Bool.and_eq_true _ _).mp h).2
  omega

/-- The test for decimal digits holds of the digits in base ten and of no others. -/
theorem tests_decimal :
  Tests 10 Char.isDigit
  := by
  apply tests_of_ascii
  · decide
  · exact fun c => toNat_lt_of_isDigit
  · decide +kernel
  · decide +kernel

/-- The test for hexadecimal digits holds of the digits in base sixteen, in either case,
and of no others. -/
theorem tests_hexadecimal :
  Tests 16 isHexDigit
  := by
  apply tests_of_ascii
  · decide
  · intro c hc
    simp only [isHexDigit, Bool.or_eq_true, Bool.and_eq_true, decide_eq_true_eq] at hc
    rcases hc with (hc | ⟨-, hle⟩) | ⟨-, hle⟩
    · apply toNat_lt_of_isDigit hc
    · have hle : c.toNat ≤ 102 := hle
      omega
    · have hle : c.toNat ≤ 70 := hle
      omega
  · decide +kernel
  · decide +kernel

/-- A run of digits has the values that its characters have one by one. -/
theorem Tests.forall₂_iff {base : Nat} {test : Char → Bool} (h : Tests base test)
    {run : List Char} {ds : List Nat} :
  List.Forall₂ (IsDigit base) run ds ↔ (∀ c ∈ run, test c = true) ∧ ds = run.map digitValue
  := by
  induction run generalizing ds with
  | nil => simp
  | cons c run ih =>
    rw [List.forall₂_cons_left_iff, List.forall_mem_cons, List.map_cons]
    constructor
    · rintro ⟨d, ds, hd, hds, rfl⟩
      obtain ⟨hc, rfl⟩ := (h c d).mp hd
      obtain ⟨hrun, rfl⟩ := ih.mp hds
      exact ⟨⟨hc, hrun⟩, rfl⟩
    · rintro ⟨⟨hc, hrun⟩, rfl⟩
      exact ⟨digitValue c, run.map digitValue, (h c _).mpr ⟨hc, rfl⟩, ih.mpr ⟨hrun, rfl⟩, rfl⟩

/-- A text starts with a run of digits of the given values, and no further digit follows it. -/
def StartsWith (base : Nat) (cs : List Char) (ds : List Nat) : Prop :=
  ∃ run rest, cs = run ++ rest ∧ List.Forall₂ (IsDigit base) run ds
    ∧ ∀ c ∈ rest.head?, ∀ d, ¬ IsDigit base c d

/-- The longest run of digits is the one that a test takes. -/
theorem Tests.startsWith_iff {base : Nat} {test : Char → Bool} (h : Tests base test)
    {cs : List Char} {ds : List Nat} :
  StartsWith base cs ds ↔ ds = (cs.takeWhile test).map digitValue
  := by
  constructor
  · rintro ⟨run, rest, rfl, hrun, hrest⟩
    obtain ⟨htest, rfl⟩ := h.forall₂_iff.mp hrun
    have hend : rest.takeWhile test = [] := by
      cases rest with
      | nil => rfl
      | cons c rest =>
        rw [List.takeWhile_cons_of_neg]
        intro hc
        exact hrest c rfl _ ((h c _).mpr ⟨hc, rfl⟩)
    rw [List.takeWhile_append_of_pos htest, hend, List.append_nil]
  · rintro rfl
    refine ⟨cs.takeWhile test, cs.dropWhile test, List.takeWhile_append_dropWhile.symm, ?_, ?_⟩
    · apply h.forall₂_iff.mpr
      exact ⟨fun c => List.mem_takeWhile_imp, rfl⟩
    · intro c hc d hd
      have hfails := List.head?_dropWhile_not test cs
      rw [hc] at hfails
      exact absurd ((h c d).mp hd).1 (ne_true_of_eq_false hfails)

/-! ### Forms of numerals -/

/-- A form of numerals: the marks that may stand in front of the digits, the base, the number of
digits that there have to be, and whether they are written with the lowest first. -/
structure Form where
  marks : List (List Char)
  base : Nat
  least : Nat
  lowestFirst : Bool

namespace Form

def binary : Form := ⟨[['0', 'b']], 2, 1, true⟩

def hexadecimal : Form := ⟨[['0', 'x'], ['0', 'X']], 16, 1, false⟩

def octal : Form := ⟨[['0']], 8, 0, false⟩

def decimal : Form := ⟨[[]], 10, 1, false⟩

/-- All forms, in the order in which they are tried. -/
def all : List Form := [binary, hexadecimal, octal, decimal]

/-- The number that digits stand for.  Of those with the lowest first only thirty-two count. -/
def value (f : Form) (ds : List Nat) : Nat :=
  if f.lowestFirst then Nat.ofDigits f.base (ds.take 32) else Nat.ofDigits f.base ds.reverse

/-- A text starts with a numeral of this form. -/
def Matches (f : Form) (cs : List Char) (ds : List Nat) : Prop :=
  ∃ mark ∈ f.marks, ∃ rest, cs = mark ++ rest ∧ StartsWith f.base rest ds ∧ f.least ≤ ds.length

/-- The first of several forms that a text starts with gives its number. -/
inductive First (cs : List Char) : List Form → Nat → Prop where
  | here {f : Form} {fs : List Form} {ds : List Nat} (h : f.Matches cs ds) :
      First cs (f :: fs) (f.value ds)
  | there {f : Form} {fs : List Form} {n : Nat} (hf : ∀ ds, ¬ f.Matches cs ds)
      (h : First cs fs n) : First cs (f :: fs) n

end Form

/-- The number of the numeral that a text starts with. -/
def Denotes (cs : List Char) (n : Nat) : Prop := Form.First cs Form.all n

/-- A sign and what follows it.  Without a sign a number is positive. -/
inductive Signed : List Char → Int → List Char → Prop where
  | plus (cs : List Char) : Signed ('+' :: cs) 1 cs
  | minus (cs : List Char) : Signed ('-' :: cs) (-1) cs
  | unsigned {cs : List Char} (hplus : cs.head? ≠ some '+') (hminus : cs.head? ≠ some '-') :
      Signed cs 1 cs

/-- The integer of the sign and the numeral that a text starts with. -/
def StandsFor (cs : List Char) (v : Int) : Prop :=
  ∃ sign rest n, Signed cs sign rest ∧ Denotes rest n ∧ v = sign * n

/-! ### The numbers of digits -/

/-- Read from the left, a run of digits is the number with these digits, the lowest of
them last. -/
theorem digitsValue_eq (base : Nat) (run : List Char) :
  digitsValue base run = Nat.ofDigits base (run.map digitValue).reverse
  := by
  induction run using List.reverseRecOn with
  | nil => rfl
  | append_singleton run c ih =>
    rw [digitsValue, List.foldl_append, ← digitsValue, ih]
    simp [Nat.ofDigits_cons]
    ring

/-- Read from the left, binary digits are the number whose lowest digit comes first. -/
theorem readBits_eq (run : List Char) :
  readBits run = Nat.ofDigits 2 (run.map digitValue)
  := by
  induction run with
  | nil => rfl
  | cons c run ih => rw [readBits, ih, List.map_cons, Nat.ofDigits_cons]

/-- Binary digits up to a width stay below the power of two of that width. -/
theorem ofDigits_take_lt {ds : List Nat} (h : ∀ d ∈ ds, d < 2) (width : Nat) :
  Nat.ofDigits 2 (ds.take width) < 2 ^ width
  := by
  have hdigits : ∀ d ∈ ds.take width, d < 2 := fun d hd => h d (List.mem_of_mem_take hd)
  calc
    Nat.ofDigits 2 (ds.take width) < 2 ^ (ds.take width).length :=
      Nat.ofDigits_lt_base_pow_length Nat.one_lt_two hdigits
    _ ≤ 2 ^ width := Nat.pow_le_pow_right Nat.two_pos (List.length_take_le _ _)

/-- Thirty-two binary digits are less than the greatest magnitude. -/
theorem Form.binary_value_le {ds : List Nat} (h : ∀ d ∈ ds, d < 2) :
  binary.value ds ≤ magnitudeMax
  := by
  have hlt := ofDigits_take_lt h 32
  have hvalue : binary.value ds = Nat.ofDigits 2 (ds.take 32) := rfl
  rw [hvalue, magnitudeMax]
  omega

/-- A run of digits with the highest first is read up to the greatest magnitude. -/
theorem readDigits_run {base : Nat} (h : 0 < base) (run : List Char) :
  readDigits base run = min (Nat.ofDigits base (run.map digitValue).reverse) magnitudeMax
  := by
  rw [readDigits_eq h, digitsValue_eq]

/-! ### Magnitudes -/

section Magnitude

variable {cs : List Char} {ds : List Nat}

/-- A binary numeral is its mark and the run of binary digits after it, which is not
empty. -/
theorem matches_binary_iff :
  Form.binary.Matches cs ds
    ↔ ∃ rest, cs = '0' :: 'b' :: rest ∧ ds = (rest.takeWhile isBinaryDigit).map digitValue
      ∧ ds ≠ []
  := by
  simp [Form.Matches, Form.binary, tests_binary.startsWith_iff, Nat.one_le_iff_ne_zero]

/-- A hexadecimal numeral is its mark in either case and the run of hexadecimal digits
after it, which is not empty. -/
theorem matches_hexadecimal_iff :
  Form.hexadecimal.Matches cs ds
    ↔ ∃ x rest, (x = 'x' ∨ x = 'X') ∧ cs = '0' :: x :: rest
      ∧ ds = (rest.takeWhile isHexDigit).map digitValue ∧ ds ≠ []
  := by
  simp [Form.Matches, Form.hexadecimal, tests_hexadecimal.startsWith_iff, Nat.one_le_iff_ne_zero]

/-- An octal numeral is a zero and the run of octal digits after it, which may be empty. -/
theorem matches_octal_iff :
  Form.octal.Matches cs ds
    ↔ ∃ rest, cs = '0' :: rest ∧ ds = (rest.takeWhile isOctalDigit).map digitValue
  := by
  simp [Form.Matches, Form.octal, tests_octal.startsWith_iff]

/-- A decimal numeral is the run of digits in front, which is not empty. -/
theorem matches_decimal_iff :
  Form.decimal.Matches cs ds ↔ ds = (cs.takeWhile Char.isDigit).map digitValue ∧ ds ≠ []
  := by
  simp [Form.Matches, Form.decimal, tests_decimal.startsWith_iff, Nat.one_le_iff_ne_zero]

/-- A binary numeral is read as its number, up to the greatest magnitude. -/
theorem magnitude?_of_binary (h : Form.binary.Matches cs ds) :
  magnitude? cs = some (min (Form.binary.value ds) magnitudeMax)
  := by
  obtain ⟨rest, rfl, rfl, hne⟩ := matches_binary_iff.mp h
  have hdigits : ∀ d ∈ (rest.takeWhile isBinaryDigit).map digitValue, d < 2 := by
    intro d hd
    obtain ⟨c, hc, rfl⟩ := List.mem_map.mp hd
    exact ((tests_binary c _).mpr ⟨List.mem_takeWhile_imp hc, rfl⟩).1
  have hvalue : readBits ((rest.takeWhile isBinaryDigit).take binaryWidth)
      = Form.binary.value ((rest.takeWhile isBinaryDigit).map digitValue) := by
    rw [readBits_eq, List.map_take]
    rfl
  rw [Nat.min_eq_left (Form.binary_value_le hdigits), ← hvalue, magnitude?]
  split
  · next hnil => simp [hnil] at hne
  · rfl

/-- A hexadecimal numeral is read as its number, up to the greatest magnitude. -/
theorem magnitude?_of_hexadecimal (h : Form.hexadecimal.Matches cs ds) :
  magnitude? cs = some (min (Form.hexadecimal.value ds) magnitudeMax)
  := by
  obtain ⟨x, rest, hx, rfl, rfl, hne⟩ := matches_hexadecimal_iff.mp h
  have hvalue :
      min (Form.hexadecimal.value ((rest.takeWhile isHexDigit).map digitValue)) magnitudeMax
        = readDigits 16 (rest.takeWhile isHexDigit) := (readDigits_run (by decide) _).symm
  rw [hvalue]
  rcases hx with rfl | rfl
  · rw [magnitude?]
    split
    · next hnil => simp [hnil] at hne
    · rfl
  · rw [magnitude?]
    split
    · next hnil => simp [hnil] at hne
    · rfl

/-- After a zero that opens neither a binary nor a hexadecimal numeral octal digits are
read. -/
theorem magnitude?_zero_cons {x : Char} (hb : x ≠ 'b') (hx : x ≠ 'x') (hX : x ≠ 'X')
    (rest : List Char) :
  magnitude? ('0' :: x :: rest) = some (readDigits 8 ((x :: rest).takeWhile isOctalDigit))
  := by
  unfold magnitude?
  split
  · simp_all
  · simp_all
  · simp_all
  · simp_all
  · simp_all

/-- A zero is octal, also in front of a letter that no digits follow. -/
theorem magnitude?_of_octal (hbinary : ∀ ds, ¬ Form.binary.Matches cs ds)
    (hhexadecimal : ∀ ds, ¬ Form.hexadecimal.Matches cs ds) (h : Form.octal.Matches cs ds) :
  magnitude? cs = some (min (Form.octal.value ds) magnitudeMax)
  := by
  obtain ⟨rest, rfl, rfl⟩ := matches_octal_iff.mp h
  have hvalue : min (Form.octal.value ((rest.takeWhile isOctalDigit).map digitValue)) magnitudeMax
      = readDigits 8 (rest.takeWhile isOctalDigit) := (readDigits_run (by decide) _).symm
  rw [hvalue]
  cases rest with
  | nil => rfl
  | cons x rest =>
    by_cases hb : x = 'b'
    · subst hb
      have hnil : rest.takeWhile isBinaryDigit = [] := by
        by_contra hne
        exact hbinary _ (matches_binary_iff.mpr ⟨rest, rfl, rfl, by simpa using hne⟩)
      rw [magnitude?, hnil]
      rfl
    · by_cases hx : x = 'x' ∨ x = 'X'
      · have hnil : rest.takeWhile isHexDigit = [] := by
          by_contra hne
          exact hhexadecimal _
            (matches_hexadecimal_iff.mpr ⟨x, rest, hx, rfl, rfl, by simpa using hne⟩)
        rcases hx with rfl | rfl
        · rw [magnitude?, hnil]
          rfl
        · rw [magnitude?, hnil]
          rfl
      · rw [not_or] at hx
        apply magnitude?_zero_cons hb hx.1 hx.2

/-- Without a zero in front only the decimal form is left. -/
theorem magnitude?_eq_decimal (hoctal : ∀ ds, ¬ Form.octal.Matches cs ds) :
  magnitude? cs
    = match cs.takeWhile Char.isDigit with
      | [] => none
      | digits => some (readDigits 10 digits)
  := by
  cases cs with
  | nil => rfl
  | cons c cs =>
    apply magnitude?_cons_of_ne
    rintro rfl
    exact hoctal _ (matches_octal_iff.mpr ⟨cs, rfl, rfl⟩)

/-- A decimal numeral that is not an octal one is read as its number, up to the greatest
magnitude. -/
theorem magnitude?_of_decimal (hoctal : ∀ ds, ¬ Form.octal.Matches cs ds)
    (h : Form.decimal.Matches cs ds) :
  magnitude? cs = some (min (Form.decimal.value ds) magnitudeMax)
  := by
  obtain ⟨rfl, hne⟩ := matches_decimal_iff.mp h
  have hvalue : min (Form.decimal.value ((cs.takeWhile Char.isDigit).map digitValue)) magnitudeMax
      = readDigits 10 (cs.takeWhile Char.isDigit) := (readDigits_run (by decide) _).symm
  rw [hvalue, magnitude?_eq_decimal hoctal]
  split
  · next hnil => simp [hnil] at hne
  · rfl

/-- Without a digit in front nothing is read. -/
theorem magnitude?_of_no_digits (hoctal : ∀ ds, ¬ Form.octal.Matches cs ds)
    (hdecimal : ∀ ds, ¬ Form.decimal.Matches cs ds) :
  magnitude? cs = none
  := by
  rw [magnitude?_eq_decimal hoctal]
  split
  · rfl
  · next hne =>
    exact absurd (matches_decimal_iff.mpr ⟨rfl, by simpa using hne⟩) (hdecimal _)

/-- The magnitude of a text is the number of its numeral, up to the greatest magnitude. -/
theorem magnitude?_of_denotes {n : Nat} (h : Denotes cs n) :
  magnitude? cs = some (min n magnitudeMax)
  := by
  cases h with
  | here h => apply magnitude?_of_binary h
  | there hbinary h =>
    cases h with
    | here h => apply magnitude?_of_hexadecimal h
    | there hhexadecimal h =>
      cases h with
      | here h => apply magnitude?_of_octal hbinary hhexadecimal h
      | there hoctal h =>
        cases h with
        | here h => apply magnitude?_of_decimal hoctal h
        | there _ h => cases h

/-- Nothing is read of a text that starts with no numeral. -/
theorem magnitude?_of_not_denotes (h : ∀ n, ¬ Denotes cs n) :
  magnitude? cs = none
  := by
  have hbinary : ∀ ds, ¬ Form.binary.Matches cs ds := fun ds hds => h _ (.here hds)
  have hhexadecimal : ∀ ds, ¬ Form.hexadecimal.Matches cs ds := fun ds hds =>
    h _ (.there hbinary (.here hds))
  have hoctal : ∀ ds, ¬ Form.octal.Matches cs ds := fun ds hds =>
    h _ (.there hbinary (.there hhexadecimal (.here hds)))
  have hdecimal : ∀ ds, ¬ Form.decimal.Matches cs ds := fun ds hds =>
    h _ (.there hbinary (.there hhexadecimal (.there hoctal (.here hds))))
  apply magnitude?_of_no_digits hoctal hdecimal

end Magnitude

/-! ### Integers -/

/-- Without a sign the magnitude itself is clamped. -/
theorem readInteger_unsigned {cs : List Char} (hplus : cs.head? ≠ some '+')
    (hminus : cs.head? ≠ some '-') :
  readInteger cs = clamp32 ((magnitude? cs).getD 0 : Nat)
  := by
  unfold readInteger
  split
  · simp at hminus
  · simp at hplus
  · rfl

/-- What is read after a sign. -/
theorem Signed.readInteger {cs rest : List Char} {sign : Int} (h : Signed cs sign rest) :
  Literal.readInteger cs = clamp32 (sign * ((magnitude? rest).getD 0 : Nat))
  := by
  cases h with
  | plus => rw [Literal.readInteger, one_mul]
  | minus => rw [Literal.readInteger, neg_one_mul]
  | unsigned hplus hminus => rw [readInteger_unsigned hplus hminus, one_mul]

/-- Every text has a sign, if only the one that is left out. -/
theorem exists_signed (cs : List Char) :
  ∃ sign rest, Signed cs sign rest
  := by
  by_cases hplus : cs.head? = some '+'
  · obtain ⟨rest, rfl⟩ := List.head?_eq_some_iff.mp hplus
    exact ⟨1, rest, .plus rest⟩
  · by_cases hminus : cs.head? = some '-'
    · obtain ⟨rest, rfl⟩ := List.head?_eq_some_iff.mp hminus
      exact ⟨-1, rest, .minus rest⟩
    · exact ⟨1, cs, .unsigned hplus hminus⟩

/-- The greatest magnitude lies beyond the integers of 32 bits, so it does not matter to the
nearest one of these. -/
theorem clamp32_min_magnitudeMax {cs rest : List Char} {sign : Int} (h : Signed cs sign rest)
    (n : Nat) :
  clamp32 (sign * (min n magnitudeMax : Nat)) = clamp32 (sign * n)
  := by
  cases h with
  | plus | unsigned => rw [clamp32, clamp32, magnitudeMax]; omega
  | minus => rw [clamp32, clamp32, magnitudeMax]; omega

/-- The nearest integer of 32 bits to the one that a text stands for is read. -/
theorem readInteger_of_standsFor {cs : List Char} {v : Int} (h : StandsFor cs v) :
  readInteger cs = clamp32 v
  := by
  obtain ⟨sign, rest, n, hsigned, hdenotes, rfl⟩ := h
  rw [hsigned.readInteger, magnitude?_of_denotes hdenotes, Option.getD_some,
    clamp32_min_magnitudeMax hsigned]

/-- A text that stands for no integer is read as zero. -/
theorem readInteger_of_not_standsFor {cs : List Char} (h : ∀ v, ¬ StandsFor cs v) :
  readInteger cs = 0
  := by
  obtain ⟨sign, rest, hsigned⟩ := exists_signed cs
  have hnone : magnitude? rest = none := by
    apply magnitude?_of_not_denotes
    exact fun n hn => h _ ⟨sign, rest, n, hsigned, hn, rfl⟩
  rw [hsigned.readInteger, hnone, Option.getD_none, Int.natCast_zero, mul_zero]
  rfl

/-! ### Texts without truth values -/

/-- The words of the two truth values do not occur in a text, in any case. -/
def Wordless (cs : List Char) : Prop :=
  ∀ word ∈ ["true", "false"], ¬ word.toList <:+: cs.map Char.toLower

/-- The search for a word finds it where it occurs, and only there. -/
theorem occurs_iff {word cs : List Char} :
  occurs word cs = true ↔ word <:+: cs
  := by
  induction cs with
  | nil => simp [occurs]
  | cons c cs ih =>
    rw [occurs, Bool.or_eq_true, List.isPrefixOf_iff_prefix, ih, List.infix_cons_iff]

/-- Without the words for truth values a literal is read as an integer. -/
theorem Wordless.read_eq {cs : List Char} (h : Wordless cs) :
  read cs = readInteger cs
  := by
  have htrue : ¬ mentions ['t', 'r', 'u', 'e'] cs = true := mt occurs_iff.mp (h "true" (by simp))
  have hfalse : ¬ mentions ['f', 'a', 'l', 's', 'e'] cs = true :=
    mt occurs_iff.mp (h "false" (by simp))
  rw [read, if_neg htrue, if_neg hfalse]

/-! ### Bounds -/

/-- A number is the nearest one within bounds to the integer that a text stands for, and zero if
the text stands for none. -/
structure NearestTo (least greatest : Int) (cs : List Char) (n : Int) : Prop where
  integer : ∀ v, StandsFor cs v → n = max least (min v greatest)
  nothing : (∀ v, ¬ StandsFor cs v) → n = 0

/-- Without these words a literal is read as the nearest integer of thirty-two bits. -/
theorem Wordless.nearestTo_read {cs : List Char} (h : Wordless cs) :
  NearestTo (-2147483648) 2147483647 cs (read cs)
  where
  integer := by
    intro v hv
    rw [h.read_eq, readInteger_of_standsFor hv, clamp32]
  nothing := by
    intro hnone
    rw [h.read_eq, readInteger_of_not_standsFor hnone]

end BladeStyle.Literal
