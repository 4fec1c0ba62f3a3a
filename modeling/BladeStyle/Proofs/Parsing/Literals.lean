import BladeStyle.Proofs.Literal.LowDigits
import BladeStyle.Proofs.Literal.Words
import BladeStyle.Proofs.Parsing.Unlimited
import BladeStyle.Proofs.Registry.Builtin
import BladeStyle.Proofs.RoundTrip

/-!
# The literals of a style

A literal slot of a parsed style holds what is read from its argument, at every depth.  A Number
slot holds the integer that the argument stands for, exactly or the nearest bound; a Bits slot
holds the low digits of its literal.
-/

namespace BladeStyle

namespace Literal

/-- The decimal form of an integer. -/
theorem toList_toString (n : Int) :
  (toString n).toList = writeNumber n
  := by
  cases n with
  | ofNat n =>
    show (Nat.repr n).toList = Nat.toDigits 10 n
    simp [Nat.repr]
  | negSucc n =>
    show (("-" : String) ++ Nat.repr (n + 1)).toList = '-' :: Nat.toDigits 10 (n + 1)
    simp [Nat.repr]

/-- The bounds of a Number slot lie within those of 32 bits. -/
theorem Wordless.nearestTo_nearestNumber {cs : List Char} (h : Wordless cs) :
  NearestTo (-32768) 32767 cs (nearestNumber (read cs))
  where
  integer := by
    intro v hv
    rw [h.nearestTo_read.integer v hv, nearestNumber, leastNumber, greatestNumber]
    omega
  nothing := by
    intro hnone
    rw [h.nearestTo_read.nothing hnone]
    rfl

end Literal

/-- Every slot of a style, and of the children below it, is as `P` says for the literal of the
argument in its place.  The children stand in the arguments of the text. -/
inductive ReadThroughout (P : List Char → Slot Style → Prop) : String → Style → Prop where
  | node {text : String} {e : Expression} {t : Style} (he : Expression.ofText? text = .ok e)
      (hslots : List.Forall₂ (fun argument p => P argument.literal p.slot) e.arguments t.params)
      (hchildren : ∀ argument p c, (argument, p) ∈ e.arguments.zip t.params → p.slot = .child c →
        ReadThroughout P argument.text c) :
      ReadThroughout P text t

namespace Registry

variable {r : Registry}

/-- The parameters of a parsed style are what its arguments are, and these are shorter texts. -/
theorem exists_fills_of_parse {text : String} {t : Style} (h : r.parse text = .ok t) :
  ∃ e, Expression.ofText? text = .ok e
    ∧ List.Forall₂ (fun argument p => r.Fills argument p.slot) e.arguments t.params
    ∧ ∀ argument ∈ e.arguments, argument.text.length < text.length
  := by
  cases hs : Source.ofText? text with
  | error error =>
    rw [parse, hs] at h
    cases h
  | ok s =>
    obtain ⟨hlegible, rfl⟩ := Source.text_of_ofText? hs
    rw [parse_text hlegible, parseWithin] at h
    split at h
    · cases h
    · next e he =>
      use e, hlegible.ofText?_expression.trans he, forall₂_fills hlegible he h
      intro argument hargument
      rw [Source.text, Source.text, String.length_ofList, String.length_ofList]
      apply Expression.length_lt_of_mem_arguments he hargument

/-- What holds of a slot and its argument holds throughout a parsed style; by induction on the
length of the text. -/
theorem readThroughout_of_parse {P : List Char → Slot Style → Prop}
    (hP : ∀ argument slot, r.Fills argument slot → P argument.literal slot) {text : String}
    {t : Style} (h : r.parse text = .ok t) :
  ReadThroughout P text t
  := by
  induction hlength : text.length using Nat.strongRecOn generalizing text t with
  | ind n ih =>
    obtain ⟨e, he, hfills, hshorter⟩ := exists_fills_of_parse h
    apply ReadThroughout.node he (hfills.imp fun argument (p : Param Style) => hP argument p.slot)
    intro argument p c hmem hc
    have hchild : r.Fills argument p.slot := (List.forall₂_iff_zip.mp hfills).2 hmem
    rw [hc] at hchild
    rw [← hlength] at ih
    apply ih _ (hshorter argument (List.of_mem_zip hmem).1) hchild rfl

/-! ### Integers -/

/-- Literals are read exactly.  A text that mentions no truth value is read as the nearest integer
of 32 bits to the one that it stands for, and as zero if it stands for none.  In words of 64 bits
no step goes astray, whatever the number of digits.  So every integer of 32 bits is read back from
its decimal form, and a Number slot holds the nearest number to the integer of its literal, at
every depth of a parsed style. -/
theorem literals_are_exact (r : Registry) :
  (∀ cs, Literal.Wordless cs →
      Literal.NearestTo (-2147483648) 2147483647 cs (Literal.read cs))
    ∧ (∀ f ∈ Literal.Form.all, ∀ ds : List Nat, (∀ d ∈ ds, d < f.base) → f.ExactInWords ds)
    ∧ (∀ n : Int, -2147483648 ≤ n → n ≤ 2147483647 → Literal.read (toString n).toList = n)
    ∧ (∀ (p : Param Style) (m : Int) (cs : List Char), p.slot = .number m → Literal.Wordless cs →
      ∃ n, p.store (.int (Literal.read cs)) = .ok { p with slot := .number n }
        ∧ Literal.NearestTo (-32768) 32767 cs n)
    ∧ ∀ text t, r.parse text = .ok t →
      ReadThroughout (fun cs slot => ∀ n, slot = .number n → Literal.Wordless cs →
        Literal.NearestTo (-32768) 32767 cs n) text t
  := by
  refine ⟨fun cs h => h.nearestTo_read, fun f hf ds hds => Literal.Form.exactInWords hf hds,
    ?_, ?_, ?_⟩
  · intro n hmin hmax
    rw [Literal.toList_toString, Literal.read_writeNumber hmin hmax]
  · intro p m cs hslot hwordless
    use nearestNumber (Literal.read cs)
    constructor
    · simp only [Param.store, Param.storeNumber, hslot]
    · exact hwordless.nearestTo_nearestNumber
  · intro text t h
    apply readThroughout_of_parse _ h
    rintro argument slot hfills n rfl hwordless
    obtain rfl : n = nearestNumber (Literal.read argument.literal) := hfills
    exact hwordless.nearestTo_nearestNumber

/-- The numeral after a sign is hexadecimal, what follows its digits does not matter, and a second
sign is no numeral. -/
theorem literals_are_exact_signed :
  Literal.read "-0x1Fms".toList = -31 ∧ Literal.read ['+', '-', '5'] = 0
    ∧ (Literal.Form.decimal.word (List.replicate 40 9)).toInt = Literal.magnitudeMax
    ∧ Literal.read (toString (-2147483648 : Int)).toList = -2147483648
    ∧ (∃ n, (Param.ofNumber "Red" 0).store (.int (Literal.read "-0x1Fms".toList))
        = .ok { Param.ofNumber "Red" 0 with slot := .number n } ∧ n = -31)
    ∧ ∃ t, sampleRegistry.parse "BlastL<Rgb<-0x1Fms, 70000>>" = .ok t
      ∧ ReadThroughout (fun cs slot => ∀ n, slot = .number n → Literal.Wordless cs →
        Literal.NearestTo (-32768) 32767 cs n) "BlastL<Rgb<-0x1Fms, 70000>>" t
  := by
  have hwordless : Literal.Wordless "-0x1Fms".toList := by
    unfold Literal.Wordless
    decide
  have hsigned : Literal.StandsFor "-0x1Fms".toList (-31) := by
    have hbinary : ∀ ds, ¬ Literal.Form.binary.Matches "0x1Fms".toList ds := by
      intro ds h
      obtain ⟨rest, hrest, -⟩ := Literal.matches_binary_iff.mp h
      simp at hrest
    have hhexadecimal : Literal.Form.hexadecimal.Matches "0x1Fms".toList [1, 15] :=
      Literal.matches_hexadecimal_iff.mpr
        ⟨'x', "1Fms".toList, Or.inl rfl, rfl, by decide, by decide⟩
    exact ⟨-1, "0x1Fms".toList, 31, .minus _, .there hbinary (.here hhexadecimal), rfl⟩
  have hwordless' : Literal.Wordless ['+', '-', '5'] := by
    unfold Literal.Wordless
    decide
  have hnothing : ∀ v, ¬ Literal.StandsFor ['+', '-', '5'] v := by
    rintro v ⟨sign, rest, n, hsign, hdenotes, -⟩
    cases hsign with
    | plus =>
      have hnone : Literal.magnitude? ['-', '5'] = none := by decide
      rw [Literal.magnitude?_of_denotes hdenotes] at hnone
      cases hnone
    | unsigned hplus => exact hplus rfl
  obtain ⟨hread, hwords, hdecimal, hstore, hparsed⟩ := literals_are_exact sampleRegistry
  have hparse : (sampleRegistry.parse "BlastL<Rgb<-0x1Fms, 70000>>").toOption.map (·.name)
      = some "BlastL" := by
    decide +kernel
  obtain ⟨t, ht, -⟩ := exists_of_map_toOption_eq_some hparse
  obtain ⟨n, hn, hnearest⟩ := hstore (Param.ofNumber "Red" 0) 0 _ rfl hwordless
  refine ⟨?_, (hread _ hwordless').nothing hnothing, ?_, hdecimal _ (by decide) (by decide),
    ⟨n, hn, hnearest.integer _ hsigned⟩, t, ht, hparsed _ _ ht⟩
  · exact (hread _ hwordless).integer _ hsigned
  · rw [(hwords Literal.Form.decimal (by simp [Literal.Form.all]) _ (by decide)).magnitude]
    decide

/-! ### Bits -/

/-- A Bits slot holds the low digits of its literal, at every depth of a parsed style, and no
literal is refused. -/
theorem bits_are_low_digits (r : Registry) :
  (∀ (p : Param Style) (a : BitVec 16) (cs : List Char), p.slot = .bits a →
      ∃ b, p.store (.int (Literal.read cs)) = .ok { p with slot := .bits b }
        ∧ Literal.LowDigits cs b)
    ∧ ∀ text t, r.parse text = .ok t →
      ReadThroughout (fun cs slot => ∀ b, slot = .bits b → Literal.LowDigits cs b) text t
  := by
  constructor
  · intro p a cs hslot
    use lowBits (Literal.read cs)
    constructor
    · simp only [Param.store, Param.storeBits, hslot]
    · exact Literal.lowDigits_lowBits cs
  · intro text t h
    apply readThroughout_of_parse _ h
    rintro argument slot hfills b rfl
    obtain rfl : b = lowBits (Literal.read argument.literal) := hfills
    exact Literal.lowDigits_lowBits _

/-- A pattern of bits. -/
def patternRegistry : Registry :=
  .ofList [(.color, .ofParams "Pattern" "Pattern" .color [(Param.ofBits "Bits" 0).asVariadic])]

/-- After seventeen binary digits and after nine hexadecimal ones the lowest sixteen bits are
those of the number. -/
theorem bits_are_low_digits_pattern :
  (∃ b, (Param.ofBits "Bits" 0).store (.int (Literal.read "0b10100000000000001".toList))
      = .ok { Param.ofBits "Bits" 0 with slot := .bits b }
      ∧ b.toNat = 5 ∧ b.getLsbD 2 = true ∧ b.getLsbD 3 = false)
    ∧ (∃ b, (Param.ofBits "Bits" 0).store (.int (Literal.read "0x0007F00F0".toList))
      = .ok { Param.ofBits "Bits" 0 with slot := .bits b } ∧ b.toNat = 240)
    ∧ ∃ t, patternRegistry.parse "Pattern<0b10100000000000001, 0x0007F00F0>" = .ok t
      ∧ ReadThroughout (fun cs slot => ∀ b, slot = .bits b → Literal.LowDigits cs b)
        "Pattern<0b10100000000000001, 0x0007F00F0>" t
  := by
  have hbinary : List.Forall₂ (Literal.IsDigit 2) "10100000000000001".toList
      [1, 0, 1, 0, 0, 0, 0, 0, 0, 0, 0, 0, 0, 0, 0, 0, 1] :=
    Literal.tests_binary.forall₂_iff.mpr ⟨List.all_eq_true.mp (by decide), by decide⟩
  have hhexadecimal : List.Forall₂ (Literal.IsDigit 16) "0007F00F0".toList
      [0, 0, 0, 7, 15, 0, 0, 15, 0] :=
    Literal.tests_hexadecimal.forall₂_iff.mpr ⟨List.all_eq_true.mp (by decide), by decide⟩
  have hparse : (patternRegistry.parse "Pattern<0b10100000000000001, 0x0007F00F0>").toOption.map
      (·.name) = some "Pattern" := by
    decide +kernel
  obtain ⟨hstore, hparsed⟩ := bits_are_low_digits patternRegistry
  obtain ⟨t, ht, -⟩ := exists_of_map_toOption_eq_some hparse
  obtain ⟨b, hb, hlow⟩ := hstore (Param.ofBits "Bits" 0) _ "0b10100000000000001".toList rfl
  obtain ⟨b', hb', hlow'⟩ := hstore (Param.ofBits "Bits" 0) _ "0x0007F00F0".toList rfl
  obtain ⟨htoNat, hbits⟩ := hlow.binary _ _ rfl hbinary (by decide)
  refine ⟨⟨b, hb, htoNat, ?_, ?_⟩, ⟨b', hb', ?_⟩, t, ht, hparsed _ _ ht⟩
  · exact hbits 2 (by decide)
  · exact hbits 3 (by decide)
  · exact hlow'.hexadecimal 'x' _ _ (Or.inl rfl) rfl hhexadecimal

/-- The bounds of 32 bits come before the sixteen bits.  A number beyond them, of hexadecimal
digits or with a one at the thirty-second binary place, leaves ones in a slot where its own
lowest bits are zeros. -/
theorem bits_beyond_the_bounds :
  List.Forall₂ (Literal.IsDigit 16) "80000000".toList [8, 0, 0, 0, 0, 0, 0, 0]
    ∧ Nat.ofDigits 16 [8, 0, 0, 0, 0, 0, 0, 0].reverse % 2 ^ 16 = 0
    ∧ List.Forall₂ (Literal.IsDigit 2) "00000000000000000000000000000001".toList
      (List.replicate 31 0 ++ [1])
    ∧ Nat.ofDigits 2 (List.replicate 31 0 ++ [1]) % 2 ^ 16 = 0
    ∧ ∃ t : Style, Style.parse
        "Sequence<Black, Red, 100, 1, 0x80000000, 0b00000000000000000000000000000001>"
        = .ok t
      ∧ t.params[4]?.map (·.slot) = some (.bits 0xffff)
      ∧ t.params[5]?.map (·.slot) = some (.bits 0xffff)
  := by
  have hhexadecimal : List.Forall₂ (Literal.IsDigit 16) "80000000".toList
      [8, 0, 0, 0, 0, 0, 0, 0] :=
    Literal.tests_hexadecimal.forall₂_iff.mpr ⟨List.all_eq_true.mp (by decide), by decide⟩
  have hbinary : List.Forall₂ (Literal.IsDigit 2) "00000000000000000000000000000001".toList
      (List.replicate 31 0 ++ [1]) :=
    Literal.tests_binary.forall₂_iff.mpr ⟨List.all_eq_true.mp (by decide), by decide⟩
  have hparse : (Style.parse
        "Sequence<Black, Red, 100, 1, 0x80000000, 0b00000000000000000000000000000001>").toOption.map
      (fun t => (t.params[4]?.map (·.slot), t.params[5]?.map (·.slot)))
      = some (some (.bits 0xffff), some (.bits 0xffff)) := by
    decide +kernel
  obtain ⟨t, ht, hslots⟩ := exists_of_map_toOption_eq_some hparse
  obtain ⟨hslot, hslot'⟩ := Prod.mk.inj hslots
  exact ⟨hhexadecimal, by decide, hbinary, by decide, t, ht, hslot, hslot'⟩

end Registry

end BladeStyle
