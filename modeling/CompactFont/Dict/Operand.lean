import CompactFont.Fault
import CompactFont.Text.Decimal

/-!
# Operands of a DICT

An operand is an integer of 32 bits or a real number. A real number is kept as it is written: a
string of nibbles, two to a byte, of which each spells a digit, a point, an exponent mark or a minus
sign, up to the nibble 15, which ends it. Its value is found when it is asked for: the nibbles are
spelled out (`RealNumber.spell`), for which there is a limit of 64 characters, and the text is read
as a decimal number.
-/

namespace CompactFont

/-- The integer as a number of 64 bits; every integer of 32 bits is one. -/
def floatOfInt32 (n : Int32) : Float := Float.ofInt n.toInt

namespace RealNumber

/-- The nibble that ends a real number. -/
def terminator : UInt8 := 15

/-- The most characters that the text of a real number can have. -/
def textLimit : Nat := 64

/-- The nibbles of some bytes, the high half of each byte first. -/
def nibbles (bytes : List UInt8) : List UInt8 :=
  bytes.flatMap fun (b : UInt8) => [b >>> 4, b &&& 0xF]

/-- The nibbles before the terminator. -/
def spelled (bytes : List UInt8) : List UInt8 := (nibbles bytes).takeWhile (· != terminator)

/-- What a nibble spells. The nibble 13 is reserved and spells nothing. -/
def characters (nibble : UInt8) : List Char :=
  if nibble < 10 then [Char.ofNat ('0'.toNat + nibble.toNat)]
  else if nibble = 10 then ['.']
  else if nibble = 11 then ['E']
  else if nibble = 12 then ['E', '-']
  else if nibble = 14 then ['-']
  else []

/-- Adds what a nibble spells to a text. A text that is full takes no nibble more, not even one that
spells nothing. -/
def extend (text : List Char) (nibble : UInt8) : Except ReadFault (List Char) :=
  if text.length = textLimit ∨ textLimit < text.length + (characters nibble).length then
    .error .limitExceeded
  else .ok (text ++ characters nibble)

/-- An exponent mark with no digits after it stands for the exponent zero. -/
def completeExponent (text : List Char) : Except ReadFault (List Char) :=
  if ['E'].isSuffixOf text || ['E', '-'].isSuffixOf text then
    if text.length = textLimit then .error .limitExceeded else .ok (text ++ ['0'])
  else .ok text

/-- The text of a real number. -/
def spell (bytes : List UInt8) : Except ReadFault (List Char) := do
  completeExponent (← (spelled bytes).foldlM extend [])

/-- The value of a real number. Nothing spelled stands for zero. -/
def toFloat (bytes : List UInt8) : Except ReadFault Float := do
  let text ← spell bytes
  if text.isEmpty then return 0
  match Decimal.ofText? text with
  | some d => return d.toFloat
  | none => throw .badValue

end RealNumber

/-- An operand of a DICT operator. -/
inductive Operand where
  /-- An integer. -/
  | integer (n : Int32)
  /-- A real number, as it is written. -/
  | real (bytes : List UInt8)
  deriving DecidableEq

namespace Operand

/-- The value of an operand. -/
def toFloat : Operand → Except ReadFault Float
  | .integer n => .ok (floatOfInt32 n)
  | .real bytes => RealNumber.toFloat bytes

/-- The operand as the number of a string: an integer of 16 bits without sign. -/
def toSid : Operand → Except ReadFault UInt16
  | .integer n =>
    if 0 ≤ n.toInt ∧ n.toInt < 65536 then .ok (UInt16.ofNat n.toInt.toNat) else .error .badValue
  | .real _ => .error .badValue

end Operand

/-- An integer as an offset, which has no sign. -/
def offsetOfInt32 (n : Int32) : Except ReadFault Nat :=
  if 0 ≤ n.toInt then .ok n.toInt.toNat else .error .badValue

end CompactFont
