import CompactFont.Charstring.Op
import CompactFont.Text.ShortestDecimal

/-!
# Instructions of a charstring

An instruction has an operation and a value. What the value means is up to the operation: a load
holds its operands in it, a mask its bytes, the width its number; all others have the value 0. In a
compacted list, an instruction with the value 0 can take over a load that stands before it. Its
value is then the value of that load, and `taken` tells how operands are held there.
-/

namespace CompactFont.Charstring

/-- Operands that an instruction pushes before its operation, and how its value holds them. -/
inductive Taken where
  /-- There are none. -/
  | nothing
  /-- One integer. -/
  | int
  /-- Two integers of 16 bits. -/
  | shorts
  /-- Four integers of 8 bits. -/
  | fourBytes
  deriving DecidableEq

/-- One step of a decoded charstring. -/
structure Instruction where
  /-- What is done. -/
  op : Op
  /-- What is pushed before. -/
  taken : Taken
  /-- The value, for the operation or for what is pushed before. -/
  value : Int32
  deriving DecidableEq

/-- Two integers of 16 bits in one value. -/
def packShorts (a b : Int32) : Int32 :=
  Int32.ofInt (a.toInt % 65536 * 65536 + b.toInt % 65536)

/-- The two integers of 16 bits in a value. -/
def unpackShorts (value : Int32) : List Int32 :=
  [Int32.ofInt (value.toInt / 65536), Int32.ofInt (value.toInt.bmod 65536)]

/-- Four integers of 8 bits in one value. -/
def packBytes (a b c d : Int32) : Int32 :=
  Int32.ofInt (((a.toInt % 256 * 256 + b.toInt % 256) * 256 + c.toInt % 256) * 256 + d.toInt % 256)

/-- The four integers of 8 bits in a value. -/
def unpackBytes (value : Int32) : List Int32 :=
  [16777216, 65536, 256, 1].map fun unit => Int32.ofInt ((value.toInt / unit).bmod 256)

/-- The operands that an instruction pushes before its operation. -/
def Taken.operands (taken : Taken) (value : Int32) : List Int32 :=
  match taken with
  | .nothing => []
  | .int => [value]
  | .shorts => unpackShorts value
  | .fourBytes => unpackBytes value

namespace Instruction

/-- An operation with a value of its own. -/
def withValue (op : Op) (value : Int32) : Instruction := ⟨op, .nothing, value⟩

/-- An operation with nothing more to it. -/
def plain (op : Op) : Instruction := withValue op 0

/-- The load of one integer. -/
def int (n : Int32) : Instruction := withValue (.load .int) n

/-- The instruction is the load of one integer, and nothing else. -/
def isInt (i : Instruction) : Bool := i.op = .load .int ∧ i.taken = .nothing

/-- The value as a number with 16 bits after the point. -/
def fixedValue (i : Instruction) : Float32 := Float32.ofInt i.value.toInt / 65536

/-- The operands that a load of several integers pushes. -/
def packedOperands (i : Instruction) : List Int32 :=
  match i.op with
  | .load .shorts => unpackShorts i.value
  | .load .fourBytes => unpackBytes i.value
  | .load .threeBytes => (unpackBytes i.value).take 3
  | _ => []

/-- Numbers are written with a point only where there are digits after it, and never with an
exponent. -/
def numberStyle : DecimalStyle := ⟨false, none⟩

/-- A value as eight hexadecimal digits or fewer, in two's complement. -/
def hexText (n : Int32) : String :=
  String.ofList ('0' :: 'x' :: Nat.toDigits 16 n.toUInt32.toNat)

/-- The text of what an instruction pushes before its operation. -/
def takenText (i : Instruction) : String :=
  match i.taken with
  | .nothing => ""
  | taken =>
    "[" ++ " ".intercalate ((taken.operands i.value).map fun n => toString n.toInt) ++ "] "

/-- The text of the operation of an instruction. -/
def opText (i : Instruction) : String :=
  match i.op with
  | .load .int => toString i.value.toInt
  | .load .fixed => numberStyle.text i.fixedValue
  | .width => "width " ++ toString i.value.toInt
  | op => if i.taken = .nothing ∧ i.value ≠ 0 then op.name ++ " " ++ hexText i.value else op.name

/-- The text of an instruction. -/
def text (i : Instruction) : String := i.takenText ++ i.opText

end Instruction

end CompactFont.Charstring
