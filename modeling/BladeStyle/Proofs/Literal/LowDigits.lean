import BladeStyle.Proofs.Literal.Numeral
import BladeStyle.Style.Binding

/-!
# The low digits of literals

A literal of `0x` or `0b` and digits is a number without bounds.  What is read of it is the
nearest integer of 32 bits, and a Bits slot takes the lowest sixteen bits of this.  Of a
hexadecimal literal up to the greatest integer of 32 bits these are the number modulo 2 ^ 16.
So they are of a binary literal unless its thirty-second digit is a one, and then each of them is
the digit at its place.
-/

namespace BladeStyle.Literal

/-! ### Binary digits -/

section Binary

variable {ds : List Nat}

theorem testBit_ofDigits (h : ∀ d ∈ ds, d < 2) (k : Nat) :
  (Nat.ofDigits 2 ds).testBit k = decide (ds[k]? = some 1)
  := by
  induction ds generalizing k with
  | nil => simp
  | cons d ds ih =>
    obtain ⟨hd, hds⟩ := List.forall_mem_cons.mp h
    rw [Nat.ofDigits_cons]
    cases k with
    | zero =>
      rw [Nat.testBit_zero, Nat.add_mul_mod_self_left, Nat.mod_eq_of_lt hd]
      simp
    | succ k =>
      rw [Nat.testBit_succ, List.getElem?_cons_succ, ← ih hds,
        Nat.add_mul_div_left _ _ Nat.two_pos, Nat.div_eq_of_lt hd, Nat.zero_add]

/-- Without a one at the thirty-second place the number is an integer of 32 bits. -/
theorem binary_value_lt (h : ∀ d ∈ ds, d < 2) (hfree : ds[31]? ≠ some 1) :
  Form.binary.value ds < 2 ^ 31
  := by
  have hvalue : Form.binary.value ds = Nat.ofDigits 2 (ds.take 32) := rfl
  rw [hvalue]
  apply Nat.lt_pow_two_of_testBit
  intro k hk
  rw [testBit_ofDigits fun d hd => h d (List.mem_of_mem_take hd)]
  apply decide_eq_false
  rcases Nat.eq_or_lt_of_le hk with rfl | hlt
  · rwa [List.getElem?_take_of_lt (by decide)]
  · rw [List.getElem?_take_eq_none hlt]
    nofun

/-- The digits that do not count are not among the lowest sixteen. -/
theorem binary_value_mod (h : ∀ d ∈ ds, d < 2) :
  Form.binary.value ds % 2 ^ 16 = Nat.ofDigits 2 ds % 2 ^ 16
  := by
  have hvalue : Form.binary.value ds = Nat.ofDigits 2 (ds.take 32) := rfl
  rw [hvalue, Nat.ofDigits_mod_pow_eq_ofDigits_take 16 Nat.two_pos _ h,
    Nat.ofDigits_mod_pow_eq_ofDigits_take 16 Nat.two_pos _
      fun d hd => h d (List.mem_of_mem_take hd),
    List.take_take, Nat.min_eq_left (by decide : 16 ≤ 32)]

end Binary

/-! ### Literals of digits -/

/-- A text that lacks a letter of either word mentions none of them. -/
theorem wordless_of_letters {cs : List Char} (h : ∀ c ∈ cs, c.toLower ≠ 't' ∧ c.toLower ≠ 'l') :
  Wordless cs
  := by
  have hletter : ∀ word c, c ∈ word → c ∉ cs.map Char.toLower →
      ¬ word <:+: cs.map Char.toLower := by
    intro word c hword hc hoccurs
    exact hc (hoccurs.mem hword)
  rw [Wordless, List.forall_mem_cons, List.forall_mem_singleton]
  constructor
  · apply hletter _ 't' (by decide)
    simpa using fun c hc => (h c hc).1
  · apply hletter _ 'l' (by decide)
    simpa using fun c hc => (h c hc).2

theorem toLower_ne_of_isDigit {base d : Nat} {c : Char} (hbase : base ≤ 16)
    (h : IsDigit base c d) :
  c.toLower ≠ 't' ∧ c.toLower ≠ 'l'
  := by
  have key : ∀ n < 16, Nat.digitChar n ≠ 't' ∧ Nat.digitChar n ≠ 'l' := by decide
  rw [h.2]
  apply key d (Nat.lt_of_lt_of_le h.1 hbase)

section Run

variable {base : Nat} {run : List Char} {ds : List Nat}

theorem forall_lt_of_forall₂ (h : List.Forall₂ (IsDigit base) run ds) :
  ∀ d ∈ ds, d < base
  := by
  induction h with
  | nil => nofun
  | cons hd _ ih => exact List.forall_mem_cons.mpr ⟨hd.1, ih⟩

theorem startsWith_of_forall₂ (h : List.Forall₂ (IsDigit base) run ds) :
  StartsWith base run ds
  := ⟨run, [], (List.append_nil run).symm, h, nofun⟩

theorem wordless_zero_cons {x : Char} (hx : x.toLower ≠ 't' ∧ x.toLower ≠ 'l') (hbase : base ≤ 16)
    (h : List.Forall₂ (IsDigit base) run ds) :
  Wordless ('0' :: x :: run)
  := by
  apply wordless_of_letters
  rw [List.forall_mem_cons, List.forall_mem_cons]
  refine ⟨by decide, hx, ?_⟩
  induction h with
  | nil => nofun
  | cons hc _ ih => exact List.forall_mem_cons.mpr ⟨toLower_ne_of_isDigit hbase hc, ih⟩

/-- A literal that starts with a zero has no sign. -/
theorem read_of_denotes {cs : List Char} {n : Nat} (hwordless : Wordless ('0' :: cs))
    (h : Denotes ('0' :: cs) n) :
  read ('0' :: cs) = clamp32 n
  := by
  rw [hwordless.read_eq]
  apply readInteger_of_standsFor
  exact ⟨1, '0' :: cs, n, .unsigned (by simp) (by simp), h, (one_mul _).symm⟩

theorem read_binary (h : List.Forall₂ (IsDigit 2) run ds) :
  read ('0' :: 'b' :: run) = clamp32 (Form.binary.value ds)
  := by
  cases h with
  | nil => decide
  | @cons c d run ds hc h =>
    have hrun := List.Forall₂.cons hc h
    apply read_of_denotes (wordless_zero_cons (by decide) (by decide) hrun)
    apply Form.First.here
    exact ⟨['0', 'b'], List.mem_cons_self, c :: run, rfl, startsWith_of_forall₂ hrun, by
      simp [Form.binary]⟩

theorem read_hexadecimal {x : Char} (hx : x = 'x' ∨ x = 'X')
    (h : List.Forall₂ (IsDigit 16) run ds) :
  read ('0' :: x :: run) = clamp32 (Nat.ofDigits 16 ds.reverse : Nat)
  := by
  have hmark : ['0', x] ∈ Form.hexadecimal.marks := by
    rcases hx with rfl | rfl <;> decide
  have hletter : x.toLower ≠ 't' ∧ x.toLower ≠ 'l' := by
    rcases hx with rfl | rfl <;> decide
  have hother : x ≠ 'b' := by
    rcases hx with rfl | rfl <;> decide
  cases h with
  | nil =>
    rcases hx with rfl | rfl <;> decide
  | @cons c d run ds hc h =>
    have hrun := List.Forall₂.cons hc h
    apply read_of_denotes (wordless_zero_cons hletter (by decide) hrun)
    apply Form.First.there
    · intro ds' hbinary
      obtain ⟨rest, hrest, -⟩ := matches_binary_iff.mp hbinary
      exact hother (List.cons.inj (List.cons.inj hrest).2).1
    · apply Form.First.here
      exact ⟨['0', x], hmark, c :: run, rfl, startsWith_of_forall₂ hrun, by
        simp [Form.hexadecimal]⟩

end Run

/-! ### The bits of a slot -/

theorem clamp32_natCast (n : Nat) :
  clamp32 n = (min n 2147483647 : Nat)
  := by
  rw [clamp32]
  omega

theorem toNat_lowBits (n : Nat) :
  (lowBits n).toNat = n % 2 ^ 16
  := by
  rw [lowBits, BitVec.ofInt_natCast, BitVec.toNat_ofNat]

/-- Sixteen bits are the low digits of a literal: of binary digits after `0b`, unless the
thirty-second of them is a one, and of hexadecimal digits after `0x`, up to the greatest integer
of 32 bits.  There may be any number of digits. -/
structure LowDigits (cs : List Char) (b : BitVec 16) : Prop where
  binary : ∀ run ds, cs = '0' :: 'b' :: run → List.Forall₂ (IsDigit 2) run ds →
    ds[31]? ≠ some 1 → b.toNat = Nat.ofDigits 2 ds % 2 ^ 16
      ∧ ∀ k < 16, b.getLsbD k = decide (ds[k]? = some 1)
  hexadecimal : ∀ x run ds, x = 'x' ∨ x = 'X' → cs = '0' :: x :: run →
    List.Forall₂ (IsDigit 16) run ds →
    b.toNat = min (Nat.ofDigits 16 ds.reverse) 2147483647 % 2 ^ 16

/-- The low bits of what is read from a literal are its low digits. -/
theorem lowDigits_lowBits (cs : List Char) :
  LowDigits cs (lowBits (read cs))
  where
  binary := by
    rintro run ds rfl hrun hfree
    have hds := forall_lt_of_forall₂ hrun
    have hlt := binary_value_lt hds hfree
    have htoNat : (lowBits (read ('0' :: 'b' :: run))).toNat = Nat.ofDigits 2 ds % 2 ^ 16 := by
      rw [read_binary hrun, clamp32_natCast, Nat.min_eq_left (Nat.le_of_lt_succ hlt),
        toNat_lowBits, binary_value_mod hds]
    use htoNat
    intro k hk
    rw [← BitVec.testBit_toNat, htoNat, Nat.testBit_mod_two_pow, testBit_ofDigits hds,
      decide_eq_true hk, Bool.true_and]
  hexadecimal := by
    rintro x run ds hx rfl hrun
    rw [read_hexadecimal hx hrun, clamp32_natCast, toNat_lowBits]

end BladeStyle.Literal
