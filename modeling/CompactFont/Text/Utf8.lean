/-!
# Text in UTF-8

The names of a font should be text in UTF-8, but need not be. They are decoded all the same: where
the bytes are not UTF-8, each longest start of a character that is broken off, or else each single
byte, is replaced by U+FFFD.

A character takes one to four bytes. The first of them tells how many, and in which range the second
must be; the others are from 80 to BF. The ranges of the second byte leave out what could be written
shorter, surrogates, and what is past the last character.
-/

namespace CompactFont.Utf8

/-- What stands for bytes that are not UTF-8. -/
def replacement : Char := '\ufffd'

/-- The number of bytes of the character that starts with `b`, and the range of the second of them.
No character starts with `b` if the number is zero. -/
def shape (b : UInt8) : Nat × UInt8 × UInt8 :=
  if b < 0x80 then (1, 0x80, 0xbf)
  else if b < 0xc2 then (0, 0x80, 0xbf)
  else if b < 0xe0 then (2, 0x80, 0xbf)
  else if b = 0xe0 then (3, 0xa0, 0xbf)
  else if b = 0xed then (3, 0x80, 0x9f)
  else if b < 0xf0 then (3, 0x80, 0xbf)
  else if b = 0xf0 then (4, 0x90, 0xbf)
  else if b < 0xf4 then (4, 0x80, 0xbf)
  else if b = 0xf4 then (4, 0x80, 0x8f)
  else (0, 0x80, 0xbf)

/-- The bits of a first byte that belong to the character, where that has `length` bytes. -/
def leadBits (length : Nat) (b : UInt8) : Nat :=
  match length with
  | 2 => b.toNat % 32
  | 3 => b.toNat % 16
  | 4 => b.toNat % 8
  | _ => b.toNat

/-- How many of the bytes, up to `most`, belong to a character: the first if it is in the range for
second bytes, and after it those that continue. -/
def countContinuing (low high : UInt8) : (most : Nat) → List UInt8 → Nat
  | 0, _ | _ + 1, [] => 0
  | most + 1, b :: bytes => if low ≤ b ∧ b ≤ high then countContinuing 0x80 0xbf most bytes + 1 else 0

/-- The character that a lead and some further bytes make. -/
def scalar (lead : Nat) (more : List UInt8) : Char :=
  Char.ofNat (more.foldl (fun n b => n * 64 + b.toNat % 64) lead)

/-- The characters that bytes stand for. -/
def decodeChars (bytes : List UInt8) : List Char :=
  match bytes with
  | [] => []
  | b :: bytes =>
    let (length, low, high) := shape b
    let found := countContinuing low high (length - 1) bytes
    let c := if length = found + 1 then scalar (leadBits length b) (bytes.take found) else replacement
    c :: decodeChars (bytes.drop found)
termination_by bytes.length
decreasing_by simp only [List.length_drop, List.length_cons]; omega

/-- The text that bytes stand for. -/
def decode (bytes : List UInt8) : String := String.ofList (decodeChars bytes)

/-- The bytes of a text. -/
def encode (text : String) : List UInt8 := text.toList.flatMap String.utf8EncodeChar

end CompactFont.Utf8
