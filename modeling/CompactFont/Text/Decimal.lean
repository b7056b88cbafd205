/-!
# Decimal numbers

The text of a decimal number is an optional minus sign, digits with at most one point among, before
or after them, and optionally an exponent: the letter E, an optional minus sign, and digits. There
is at least one digit before the exponent and, if there is an exponent, at least one in it.
`Decimal.ofText?` takes such a text apart and `Decimal.toFloat` gives the nearest number of 64 bits;
a number too large for those becomes an infinity and one too small becomes zero.
-/

namespace CompactFont

/-- The number `(-1) ^ negative * digits * 10 ^ (exponent - places)`, as it is spelled. -/
structure Decimal where
  /-- There is a minus sign in front. -/
  negative : Bool
  /-- The digits before the exponent, the most significant first. -/
  digits : List Nat
  /-- How many of the digits are after the point. -/
  places : Nat
  /-- The exponent. -/
  exponent : Int
  deriving DecidableEq

namespace Decimal

/-- The number that digits spell, the most significant first. -/
def natOfDigits (digits : List Nat) : Nat := digits.foldl (fun n d => n * 10 + d) 0

/-- The value of a digit. -/
def digit (c : Char) : Nat := c.toNat - '0'.toNat

/-- Splits the digits off the front of a text. -/
def spanDigits (text : List Char) : List Nat × List Char :=
  ((text.takeWhile Char.isDigit).map digit, text.dropWhile Char.isDigit)

/-- The text without a minus sign in front, and whether there was one. -/
def spanMinus : List Char → Bool × List Char
  | '-' :: text => (true, text)
  | text => (false, text)

/-- The exponent that a text spells; no text stands for the exponent zero. -/
def exponentOfText? : List Char → Option Int
  | [] => some 0
  | 'E' :: text =>
    let (negative, text) := spanMinus text
    match spanDigits text with
    | ([], _) | (_, _ :: _) => none
    | (digits, []) => some (if negative then -natOfDigits digits else natOfDigits digits)
  | _ :: _ => none

/-- The number that a text spells, if it spells one. -/
def ofText? (text : List Char) : Option Decimal := do
  let (negative, text) := spanMinus text
  let (whole, text) := spanDigits text
  let (fraction, text) := match text with
    | '.' :: text => spanDigits text
    | text => ([], text)
  guard (!(whole ++ fraction).isEmpty)
  let exponent ← exponentOfText? text
  return ⟨negative, whole ++ fraction, fraction.length, exponent⟩

/-- Past this distance from zero, an exponent makes every nonzero number of `digits` digits overflow
or vanish: the numbers of 64 bits lie between `10 ^ -400` and `10 ^ 400`. -/
def exponentBound (digits : Nat) : Nat := digits + 400

/-- The nearest number of 64 bits. -/
def toFloat (d : Decimal) : Float :=
  let bound : Int := exponentBound d.digits.length
  let exponent := max (-bound) (min bound d.exponent) - d.places
  let size := Float.ofScientific (natOfDigits d.digits) (exponent < 0) exponent.natAbs
  if d.negative then -size else size

end Decimal

end CompactFont
