/-!
# Literals

A literal argument is read as a C integer: after an optional sign, `0x` and hexadecimal
digits, `0` and octal digits, or decimal digits.  `0b` and binary digits give the bits
with the lowest first, which is also how bits are written.  The words `true` and `false`
anywhere in the text read as one and zero.  The value is the nearest integer of 32 bits;
whatever follows the digits is ignored, and a text that does not start with digits reads
as zero.
-/

namespace BladeStyle.Literal

/-- The value of a digit in bases up to sixteen. -/
def digitValue (c : Char) : Nat :=
  if c.isDigit then c.toNat - '0'.toNat
  else if 'a' ≤ c ∧ c ≤ 'f' then c.toNat - 'a'.toNat + 10
  else if 'A' ≤ c ∧ c ≤ 'F' then c.toNat - 'A'.toNat + 10
  else 0

def isBinaryDigit (c : Char) : Bool := c = '0' || c = '1'

def isOctalDigit (c : Char) : Bool := '0' ≤ c && c ≤ '7'

def isHexDigit (c : Char) : Bool :=
  c.isDigit || ('a' ≤ c && c ≤ 'f') || ('A' ≤ c && c ≤ 'F')

/-- The greatest magnitude that is kept while digits are read, the greatest integer of 64
bits. -/
def magnitudeMax : Nat := 9223372036854775807

/-- The number with the given digits, the highest first, up to the greatest magnitude. -/
def readDigits (base : Nat) (digits : List Char) : Nat :=
  digits.foldl (fun n c => min (n * base + digitValue c) magnitudeMax) 0

/-- The number of binary digits that count. -/
def binaryWidth : Nat := 32

/-- The number with the given binary digits, the lowest first. -/
def readBits : List Char → Nat
  | [] => 0
  | c :: cs => digitValue c + 2 * readBits cs

/-- The magnitude at the front of a text, if there is one. -/
def magnitude? (cs : List Char) : Option Nat :=
  match cs with
  | '0' :: 'b' :: rest =>
    match rest.takeWhile isBinaryDigit with
    | [] => some 0
    | digits => some (readBits (digits.take binaryWidth))
  | '0' :: 'x' :: rest | '0' :: 'X' :: rest =>
    match rest.takeWhile isHexDigit with
    | [] => some 0
    | digits => some (readDigits 16 digits)
  | '0' :: rest => some (readDigits 8 (rest.takeWhile isOctalDigit))
  | _ =>
    match cs.takeWhile Char.isDigit with
    | [] => none
    | digits => some (readDigits 10 digits)

/-- The nearest integer of 32 bits in two's complement. -/
def clamp32 (n : Int) : Int := max (-2147483648) (min n 2147483647)

/-- The signed number at the front of a text, zero if there is none. -/
def readInteger (cs : List Char) : Int :=
  match cs with
  | '-' :: rest => clamp32 (-((magnitude? rest).getD 0 : Nat))
  | '+' :: rest => clamp32 ((magnitude? rest).getD 0 : Nat)
  | cs => clamp32 ((magnitude? cs).getD 0 : Nat)

/-- Whether a word occurs in a text. -/
def occurs (word : List Char) : List Char → Bool
  | [] => word.isEmpty
  | c :: cs => word.isPrefixOf (c :: cs) || occurs word cs

/-- Whether a word of lower-case letters occurs in a text, in any case. -/
def mentions (word cs : List Char) : Bool := occurs word (cs.map Char.toLower)

/-- The integer that a literal stands for. -/
def read (cs : List Char) : Int :=
  if mentions ['t', 'r', 'u', 'e'] cs then 1
  else if mentions ['f', 'a', 'l', 's', 'e'] cs then 0
  else readInteger cs

/-- Sixteen bits as a literal, the lowest first. -/
def writeBits (bits : BitVec 16) : List Char :=
  '0' :: 'b' :: (List.range 16).map fun i => if bits.getLsbD i then '1' else '0'

/-- A number as a decimal literal. -/
def writeNumber : Int → List Char
  | .ofNat n => Nat.toDigits 10 n
  | .negSucc n => '-' :: Nat.toDigits 10 (n + 1)

def writeBool (value : Bool) : List Char :=
  if value then ['t', 'r', 'u', 'e'] else ['f', 'a', 'l', 's', 'e']

end BladeStyle.Literal
