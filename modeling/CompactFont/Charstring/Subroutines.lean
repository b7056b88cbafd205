import CompactFont.Fault
import CompactFont.Charstring.Op
import CompactFont.Index

/-!
# Subroutines

The subroutines of a font are the objects of an INDEX. A call names a subroutine by its number less
a bias, which depends on how many there are and is such that the number of any of them can be
written with 16 bits.
-/

namespace CompactFont.Charstring

/-- What is added to the operand of a call, where there are `count` subroutines. -/
def subroutineBias (count : Nat) : Nat :=
  if count < 1240 then 107 else if count < 33900 then 1131 else 32768

/-- Subroutines by biased number. -/
structure Subroutines where
  /-- The INDEX that holds them. -/
  index : Index

namespace Subroutines

/-- What is added to the operand of a call. -/
def bias (s : Subroutines) : Nat := subroutineBias s.index.count

/-- The number that an operand stands for, if it can be one: the sum has to have 32 bits and must not be
negative. -/
def number? (s : Subroutines) (operand : Int32) : Option Nat :=
  let sum := operand.toInt + s.bias
  if sum ≤ Int32.maxValue.toInt ∧ 0 ≤ sum then some sum.toNat else none

/-- The subroutine that an operand selects. -/
def get (s : Subroutines) (operand : Int32) : Except FontFault (List UInt8) :=
  match (s.number? operand).bind s.index.get? with
  | some bytes => .ok bytes
  | none => .error .noSuchSubroutine

end Subroutines

/-- The subroutines that a charstring can call. -/
structure SubroutineSets where
  /-- Those of all fonts. -/
  inAll : Subroutines
  /-- Those of the Private DICT, if it has any. -/
  inPrivate : Option Subroutines

/-- The subroutines of a scope. -/
def SubroutineSets.get (s : SubroutineSets) : SubrScope → Except FontFault Subroutines
  | .inAll => .ok s.inAll
  | .inPrivate =>
    match s.inPrivate with
    | some subroutines => .ok subroutines
    | none => .error .noPrivateSubroutines

end CompactFont.Charstring
