/-!
# Shortest decimal text

A number of 32 bits with a point is written with as few digits as tell it from all other such
numbers, and of the texts with so few digits with the one that is nearest to it. The number is
`significand * 2 ^ exponent`; the reals that round to it form an interval around it, to which the
ends belong when the significand is even. On the grid of the multiples of a power of ten, the
interval has a point only if one of the two neighbours of the number on the grid lies in it, so it
is enough to test these, on finer and finer grids.

What is written is up to a `DecimalStyle`: whether a whole number gets a point, and in which range
digits are written in their places and not with an exponent.
-/

namespace CompactFont

/-- A decimal number without sign: `digits * 10 ^ exponent`. -/
structure DecimalDigits where
  /-- The digits, as a number. -/
  digits : Nat
  /-- The power of ten that the last digit counts. -/
  exponent : Int
  deriving DecidableEq

namespace ShortestDecimal

/-- The reals that round to `significand * 2 ^ exponent`, in quarters of `2 ^ exponent`. -/
structure Interval where
  /-- Four times the significand. -/
  middle : Nat
  /-- The lower end. -/
  low : Nat
  /-- The upper end. -/
  high : Nat
  /-- The ends round to the number too. -/
  closed : Bool
  /-- The exponent of the quarters. -/
  exponent : Int

/-- The interval around a number. Below the lowest significand of a power of two the numbers are
twice as dense, except at the lowest power. -/
def Interval.around (significand : Nat) (exponent : Int) (narrow : Bool) : Interval :=
  ⟨4 * significand, 4 * significand - (if narrow then 1 else 2), 4 * significand + 2,
    significand % 2 = 0, exponent - 2⟩

/-- `a * 2 ^ p` compared with `b * 10 ^ q`, brought to whole numbers. -/
def scales (p q : Int) : Nat × Nat :=
  (Nat.pow 2 p.toNat * Nat.pow 10 (-q).toNat, Nat.pow 10 q.toNat * Nat.pow 2 (-p).toNat)

/-- The point `d * 10 ^ q` lies in the interval. -/
def Interval.contains (i : Interval) (d : Nat) (q : Int) : Bool :=
  let (two, ten) := scales i.exponent q
  if i.closed then i.low * two ≤ d * ten ∧ d * ten ≤ i.high * two
  else i.low * two < d * ten ∧ d * ten < i.high * two

/-- The point of the grid of the multiples of `10 ^ q` that is nearest to the middle of the interval,
of those that lie in the interval. Of two that are equally near, it is the upper. -/
def Interval.nearest? (i : Interval) (q : Int) : Option DecimalDigits :=
  let (two, ten) := scales i.exponent q
  let below := i.middle * two / ten
  let nearer := if 2 * (i.middle * two % ten) < ten then below else below + 1
  let further := if 2 * (i.middle * two % ten) < ten then below + 1 else below
  if i.contains nearer q then some ⟨nearer, q⟩
  else if i.contains further q then some ⟨further, q⟩
  else none

/-- The first point found on the grids of `10 ^ q`, `10 ^ (q - 1)`, and so on. -/
def firstOn (i : Interval) : (grids : Nat) → (q : Int) → Option DecimalDigits
  | 0, _ => none
  | grids + 1, q =>
    match i.nearest? q with
    | some d => some d
    | none => firstOn i grids (q - 1)

/-- The significand, the exponent, and whether the significand is the lowest of its power of two, of
the number without sign that has the given bits. -/
def unpack (bits : Nat) : Nat × Int × Bool :=
  let fraction : Nat := bits % 0x800000
  let power : Nat := bits / 0x800000 % 0x100
  if power = 0 then (fraction, -149, false)
  else (fraction + 0x800000, (power : Int) - 150, fraction = 0 ∧ power ≠ 1)

/-- The shortest digits of the number other than zero whose bits, without the sign, are given. No
number of 32 bits reaches `10 ^ 39`, and none needs a grid finer than `10 ^ -55`. -/
def ofBits (bits : Nat) : DecimalDigits :=
  let (significand, exponent, narrow) := unpack bits
  (firstOn (.around significand exponent narrow) 94 39).getD ⟨0, 0⟩

end ShortestDecimal

/-- How digits are written. -/
structure DecimalStyle where
  /-- A whole number gets a point and a zero after it. -/
  alwaysPoint : Bool
  /-- The powers of ten from which and below which a number is written without an exponent; all
  numbers are if there are none. -/
  plainRange : Option (Int × Int)

namespace DecimalStyle

/-- The digits of a number. -/
def digitChars (n : Nat) : List Char := Nat.toDigits 10 n

/-- Digits in their places. -/
def plainText (style : DecimalStyle) (d : DecimalDigits) : List Char :=
  let cs := digitChars d.digits
  if 0 ≤ d.exponent then
    cs ++ List.replicate d.exponent.toNat '0' ++ (if style.alwaysPoint then ['.', '0'] else [])
  else
    let places := d.exponent.natAbs
    let cs := List.replicate (places + 1 - cs.length) '0' ++ cs
    cs.take (cs.length - places) ++ '.' :: cs.drop (cs.length - places)

/-- Digits with an exponent: one digit before the point, if there is one. -/
def exponentText (d : DecimalDigits) : List Char :=
  let cs := digitChars d.digits
  let exponent := d.exponent + cs.length - 1
  let point := if cs.length = 1 then [] else ['.']
  cs.take 1 ++ point ++ cs.drop 1 ++ 'e' :: (toString exponent).toList

/-- The text of a number other than zero, without sign. -/
def sizeText (style : DecimalStyle) (d : DecimalDigits) : List Char :=
  match style.plainRange with
  | none => style.plainText d
  | some (low, high) =>
    let top := d.exponent + (digitChars d.digits).length - 1
    if low ≤ top ∧ top < high then style.plainText d else exponentText d

/-- The text of a number. -/
def text (style : DecimalStyle) (x : Float32) : String :=
  let bits := x.toBits.toNat
  let size := bits % 0x80000000
  if size > 0x7f800000 then "NaN"
  else
    let sign := if bits = size then [] else ['-']
    let digits :=
      if size = 0x7f800000 then ['i', 'n', 'f']
      else if size = 0 then style.plainText ⟨0, 0⟩
      else style.sizeText (ShortestDecimal.ofBits size)
    String.ofList (sign ++ digits)

end DecimalStyle

end CompactFont
