import BladeStyle.Proofs.Literal.Numeral

/-!
# Numerals in words of 64 bits

The number of a numeral is exact if it is computed in signed words of 64 bits, step by step and
with no unbounded integer on the way: products and sums of digits stop at the ends of the range,
binary digits are set one by one, and the sign and the bounds of 32 bits come last.  No step
leaves the range, whatever the number of digits.
-/

namespace BladeStyle.Literal

/-! ### Words -/

/-- The nearest word. -/
def nearestWord (n : Int) : Int64 := Int64.ofInt (max (-2 ^ 63) (min n (2 ^ 63 - 1)))

/-- The product of two words, or the end of the range where it lies beyond. -/
def saturatingMul (v w : Int64) : Int64 := nearestWord (v.toInt * w.toInt)

/-- The sum of two words, or the end of the range where it lies beyond. -/
def saturatingAdd (v w : Int64) : Int64 := nearestWord (v.toInt + w.toInt)

/-- The word of digits with the highest first. -/
def wordOfDigits (base : Nat) (ds : List Nat) : Int64 :=
  ds.foldl (fun w d => saturatingAdd (saturatingMul w (Int64.ofNat base)) (Int64.ofNat d)) 0

/-- The word of binary digits with the lowest first: the bit at the place of every one is set. -/
def wordOfBits (ds : List Nat) : Int64 :=
  ds.zipIdx.foldl (fun w p => if p.1 = 1 then w ||| 1 <<< Int64.ofNat p.2 else w) 0

/-- The word of the digits in a numeral. -/
def Form.word (f : Form) (ds : List Nat) : Int64 :=
  if f.lowestFirst then wordOfBits (ds.take 32) else wordOfDigits f.base ds

/-- The nearest word of 32 bits. -/
def narrow (w : Int64) : Int32 :=
  (if w < -2147483648 then -2147483648 else if 2147483647 < w then 2147483647 else w).toInt32

theorem toInt_nearestWord (n : Int) :
  (nearestWord n).toInt = max (-2 ^ 63) (min n (2 ^ 63 - 1))
  := by
  apply Int64.toInt_ofInt_of_le <;> omega

theorem toInt_ofNat {n : Nat} (h : n ≤ magnitudeMax) :
  (Int64.ofNat n).toInt = n
  := by
  apply Int64.toInt_ofNat_of_lt
  rw [magnitudeMax] at h
  omega

/-! ### Digits with the highest first -/

/-- One more digit. -/
theorem toInt_wordOfDigits_step {base m d : Nat} {w : Int64} (hbase : base ≤ 16) (hd : d < base)
    (hw : w.toInt = (min m magnitudeMax : Nat)) :
  (saturatingAdd (saturatingMul w (Int64.ofNat base)) (Int64.ofNat d)).toInt
    = (min (m * base + d) magnitudeMax : Nat)
  := by
  have hb : (Int64.ofNat base).toInt = base := toInt_ofNat (by rw [magnitudeMax]; omega)
  have hdigit : (Int64.ofNat d).toInt = d := toInt_ofNat (by rw [magnitudeMax]; omega)
  rw [saturatingAdd, saturatingMul, toInt_nearestWord, toInt_nearestWord, hw, hb, hdigit]
  rcases Nat.le_total m magnitudeMax with hm | hm
  · rw [Nat.min_eq_left hm, ← Int.natCast_mul, magnitudeMax]
    generalize m * base = product
    omega
  · -- beyond the greatest magnitude every product is, too
    have hm' : m ≤ m * base := Nat.le_mul_of_pos_right m (Nat.zero_lt_of_lt hd)
    have hmax : magnitudeMax ≤ magnitudeMax * base :=
      Nat.le_mul_of_pos_right magnitudeMax (Nat.zero_lt_of_lt hd)
    rw [Nat.min_eq_right hm, ← Int.natCast_mul]
    generalize magnitudeMax * base = product at hmax
    generalize m * base = product' at hm'
    rw [magnitudeMax] at hm hmax ⊢
    omega

theorem toInt_wordOfDigits {base : Nat} (hbase : base ≤ 16) {ds : List Nat}
    (hds : ∀ d ∈ ds, d < base) :
  (wordOfDigits base ds).toInt = (min (Nat.ofDigits base ds.reverse) magnitudeMax : Nat)
  := by
  induction ds using List.reverseRecOn with
  | nil => rfl
  | append_singleton ds d ih =>
    obtain ⟨hds, hd⟩ := List.forall_mem_append.mp hds
    rw [wordOfDigits, List.foldl_append, ← wordOfDigits, List.foldl_cons, List.foldl_nil,
      toInt_wordOfDigits_step hbase (hd d List.mem_cons_self) (ih hds), List.reverse_append,
      List.reverse_singleton, List.singleton_append, Nat.ofDigits_cons]
    congr 2
    ring

/-! ### Digits with the lowest first -/

theorem one_shiftLeft {i : Nat} (h : i < 32) :
  (1 : Int64) <<< Int64.ofNat i = Int64.ofNat (2 ^ i)
  := by
  revert i
  decide +kernel

theorem ofNat_or (m n : Nat) :
  Int64.ofNat m ||| Int64.ofNat n = Int64.ofNat (m ||| n)
  := by
  apply Int64.toBitVec_inj.mp
  rw [Int64.toBitVec_or]
  exact BitVec.ofNat_or.symm

/-- A bit above all others is added by setting it. -/
theorem or_two_pow {i n : Nat} (h : n < 2 ^ i) :
  n ||| 2 ^ i = n + 2 ^ i
  := by
  have hor := Nat.two_pow_add_eq_or_of_lt h 1
  rw [mul_one] at hor
  rw [Nat.or_comm, ← hor, Nat.add_comm]

theorem wordOfBits_eq {ds : List Nat} (hds : ∀ d ∈ ds, d < 2) (hlength : ds.length ≤ 32) :
  wordOfBits ds = Int64.ofNat (Nat.ofDigits 2 ds)
  := by
  induction ds using List.reverseRecOn with
  | nil => rfl
  | append_singleton ds d ih =>
    obtain ⟨hds, hd⟩ := List.forall_mem_append.mp hds
    have hi : ds.length < 32 := by simpa using hlength
    have hlt : Nat.ofDigits 2 ds < 2 ^ ds.length :=
      Nat.ofDigits_lt_base_pow_length Nat.one_lt_two hds
    rw [wordOfBits, List.zipIdx_append, List.foldl_append, ← wordOfBits, ih hds hi.le,
      Nat.ofDigits_append, Nat.ofDigits_singleton]
    have hbit : d = 0 ∨ d = 1 := Nat.le_one_iff_eq_zero_or_eq_one.mp
      (Nat.le_of_lt_succ (hd d List.mem_cons_self))
    rcases hbit with rfl | rfl
    · simp
    · simp [one_shiftLeft hi, ofNat_or, or_two_pow hlt]

/-! ### Signs and bounds -/

/-- The negation of a word that is not negative is exact. -/
theorem toInt_neg {w : Int64} (h : 0 ≤ w.toInt) :
  (-w).toInt = -w.toInt
  := by
  have hlt := w.toInt_lt
  rw [Int64.toInt_neg]
  apply Int.bmod_eq_of_le <;> omega

theorem toInt_narrow (w : Int64) :
  (narrow w).toInt = clamp32 w.toInt
  := by
  have hmin : (-2147483648 : Int64).toInt = -2147483648 := rfl
  have hmax : (2147483647 : Int64).toInt = 2147483647 := rfl
  have hexact : ∀ v : Int64, -2147483648 ≤ v.toInt → v.toInt ≤ 2147483647 →
      v.toInt32.toInt = v.toInt := by
    intro v hv hv'
    rw [Int64.toInt_toInt32]
    apply Int.bmod_eq_of_le <;> omega
  rw [narrow, clamp32]
  split
  · next hlt =>
    rw [Int64.lt_iff_toInt_lt, hmin] at hlt
    rw [hexact _ (by rw [hmin]) (by rw [hmin]; decide), hmin]
    omega
  · next hge =>
    rw [Int64.lt_iff_toInt_lt, hmin] at hge
    split
    · next hlt =>
      rw [Int64.lt_iff_toInt_lt, hmax] at hlt
      rw [hexact _ (by rw [hmax]; decide) (by rw [hmax]), hmax]
      omega
    · next hle =>
      rw [Int64.lt_iff_toInt_lt, hmax] at hle
      rw [hexact w (by omega) (by omega)]
      omega

/-! ### Numerals -/

namespace Form

variable {f : Form} {ds : List Nat}

theorem toInt_word (hf : f ∈ all) (hds : ∀ d ∈ ds, d < f.base) :
  (f.word ds).toInt = (min (f.value ds) magnitudeMax : Nat)
  := by
  have hhighest : ∀ g : Form, g.lowestFirst = false → g.base ≤ 16 → (∀ d ∈ ds, d < g.base) →
      (g.word ds).toInt = (min (g.value ds) magnitudeMax : Nat) := by
    intro g horder hbase hdigits
    rw [word, value, horder]
    exact toInt_wordOfDigits hbase hdigits
  simp only [all, List.mem_cons, List.not_mem_nil, or_false] at hf
  rcases hf with rfl | rfl | rfl | rfl
  · have hdigits : ∀ d ∈ ds.take 32, d < 2 := fun d hd => hds d (List.mem_of_mem_take hd)
    have hlength : (ds.take 32).length ≤ 32 := List.length_take_le _ _
    have hle := binary_value_le hds
    have hvalue : binary.value ds = Nat.ofDigits 2 (ds.take 32) := rfl
    have hword : binary.word ds = wordOfBits (ds.take 32) := rfl
    rw [Nat.min_eq_left hle, hword, wordOfBits_eq hdigits hlength, ← hvalue, toInt_ofNat hle]
  · apply hhighest _ rfl (by decide) hds
  · apply hhighest _ rfl (by decide) hds
  · apply hhighest _ rfl (by decide) hds

/-- What is computed in words for a numeral of this form: the magnitude stops at the end of the
range, its negation stays in the range, and narrowed to 32 bits both are nearest to the number
and its negation. -/
structure ExactInWords (f : Form) (ds : List Nat) : Prop where
  magnitude : (f.word ds).toInt = (min (f.value ds) magnitudeMax : Nat)
  negation : (-f.word ds).toInt = -(f.word ds).toInt
  positive : (narrow (f.word ds)).toInt = clamp32 (f.value ds)
  negative : (narrow (-f.word ds)).toInt = clamp32 (-f.value ds)

theorem exactInWords (hf : f ∈ all) (hds : ∀ d ∈ ds, d < f.base) :
  f.ExactInWords ds
  := by
  have hmagnitude := toInt_word hf hds
  have hnegation : (-f.word ds).toInt = -(f.word ds).toInt := by
    apply toInt_neg
    rw [hmagnitude]
    apply Int.natCast_nonneg
  refine ⟨hmagnitude, hnegation, ?_, ?_⟩
  · rw [toInt_narrow, hmagnitude, clamp32, clamp32, magnitudeMax]
    omega
  · rw [toInt_narrow, hnegation, hmagnitude, clamp32, clamp32, magnitudeMax]
    omega

end Form

end BladeStyle.Literal
