import BladeStyle.Kind

/-!
# Packed kinds

Saved configurations hold a kind as one word of 32 bits: the categories in bits 0 to
15, the fixed form flag in bit 26, the variadic flag in bit 27 and the reference in
bits 28 to 31.  `Kind.pack` and `Kind.unpack` go from a kind to its word and back;
unpacking drops the bits that mean nothing.
-/

namespace BladeStyle

/-- A kind in the form of saved configurations. -/
abbrev PackedKind := BitVec 32

namespace PackedKind

/-- The bit of the variadic flag. -/
def variadicBit : Nat := 27

/-- The bit of the fixed form flag. -/
def fixedFormBit : Nat := 26

/-- The lowest bit of the reference. -/
def referenceOffset : Nat := 28

/-- The bits that belong to the two flags and the reference. -/
def flagBits : BitVec 32 :=
  BitVec.twoPow 32 variadicBit ||| BitVec.twoPow 32 fixedFormBit ||| 15#32 <<< referenceOffset

/-- The word without its flags and its reference. -/
def category (w : PackedKind) : BitVec 32 := w &&& ~~~flagBits

def isVariadic (w : PackedKind) : Bool := w.getLsbD variadicBit

def isFixedForm (w : PackedKind) : Bool := w.getLsbD fixedFormBit

/-- The position referred to, zero if there is none. -/
def referenceIndex (w : PackedKind) : Nat := (w >>> referenceOffset &&& 15#32).toNat

end PackedKind

namespace Kind

open PackedKind in
/-- The word of a kind; of the reference it keeps the low four bits. -/
def pack (k : Kind) : PackedKind :=
  k.categories.bits.setWidth 32
    ||| (if k.variadic then BitVec.twoPow 32 variadicBit else 0)
    ||| (if k.fixedForm then BitVec.twoPow 32 fixedFormBit else 0)
    ||| match k.reference with
        | some r => (BitVec.ofNat 32 r.index &&& 15#32) <<< referenceOffset
        | none => 0

/-- The kind of a word. -/
def unpack (w : PackedKind) : Kind where
  categories := CategorySet.inter ⟨(PackedKind.category w).setWidth 16⟩ CategorySet.named
  variadic := PackedKind.isVariadic w
  fixedForm := PackedKind.isFixedForm w
  reference := Reference.ofNat? (PackedKind.referenceIndex w)

end Kind

end BladeStyle
