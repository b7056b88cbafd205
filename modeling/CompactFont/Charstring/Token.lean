import CompactFont.Bytes.IntForm
import CompactFont.Charstring.Instruction

/-!
# Tokens of a charstring

The bytes of a charstring are operands and operators. The first byte of a token tells which it is
and how it goes on; an operand of a charstring is an integer of 16 bits or a number with 16 bits
after the point. The bytes of a mask follow its operator and are not a token, since it takes the
number of stem hints to tell how many they are.

The operator bytes 0, 2, 9, 13, 15, 16 and 17 are reserved and are passed over. An escaped operator
whose second byte is past 38 is unknown and is passed over too; one that is not is not defined.
-/

namespace CompactFont.Charstring

/-- An operator that is written in two bytes. -/
inductive Escaped where
  /-- Draws. -/
  | draw (kind : Draw)
  /-- Computes. -/
  | arithmetic (kind : Arithmetic)
  /-- Is not defined. -/
  | undefined
  /-- Is not known. -/
  | unknown
  deriving DecidableEq

/-- An operand of a charstring. -/
inductive Operand where
  /-- An integer. -/
  | int (n : Int16)
  /-- A number with 16 bits after the point. -/
  | fixed (n : Int32)
  deriving DecidableEq

/-- The load that pushes an operand. -/
def Operand.load : Operand → Instruction
  | .int n => .int n.toInt32
  | .fixed n => .withValue (.load .fixed) n

/-- An operand as it is written, an integer in the given form. Charstrings do not have the long form,
which no integer of 16 bits needs. -/
def Operand.encode (form : IntForm) : Operand → List UInt8
  | .int n => form.encode n.toInt
  | .fixed n => 255 :: Cell.int32.encode n

/-- An operand can be written in a charstring. -/
def Operand.Fits (form : IntForm) : Operand → Prop
  | .int n => form ≠ .long ∧ form.Fits n.toInt
  | .fixed _ => True

instance (form : IntForm) : (value : Operand) → Decidable (value.Fits form)
  | .int n => inferInstanceAs (Decidable (_ ∧ form.Fits n.toInt))
  | .fixed _ => inferInstanceAs (Decidable True)

/-- A token of a charstring. -/
inductive Token where
  /-- Pushes an operand. -/
  | operand (value : Operand)
  /-- Stands for nothing. -/
  | reserved
  /-- Is written in two bytes. -/
  | escaped (operator : Escaped)
  /-- Declares stem hints. -/
  | stem (kind : Stem)
  /-- Selects stem hints; the bytes of the mask follow. -/
  | mask (kind : MaskKind)
  /-- Starts a contour. -/
  | move (kind : Move)
  /-- Draws. -/
  | draw (kind : Draw)
  /-- Ends the glyph. -/
  | endchar
  /-- Ends the subroutine. -/
  | ret
  /-- Calls a subroutine. -/
  | call (scope : SubrScope)
  deriving DecidableEq

/-- The operator whose second byte is given. -/
def Escaped.ofByte (b : UInt8) : Escaped :=
  match b.toNat with
  | 3 => .arithmetic .and
  | 4 => .arithmetic .or
  | 5 => .arithmetic .not
  | 9 => .arithmetic .abs
  | 10 => .arithmetic .add
  | 11 => .arithmetic .sub
  | 12 => .arithmetic .div
  | 14 => .arithmetic .neg
  | 15 => .arithmetic .eq
  | 18 => .arithmetic .drop
  | 20 => .arithmetic .put
  | 21 => .arithmetic .get
  | 22 => .arithmetic .ifelse
  | 23 => .arithmetic .random
  | 24 => .arithmetic .mul
  | 26 => .arithmetic .sqrt
  | 27 => .arithmetic .dup
  | 28 => .arithmetic .exch
  | 29 => .arithmetic .index
  | 30 => .arithmetic .roll
  | 34 => .draw .hflex
  | 35 => .draw .flex
  | 36 => .draw .hflex1
  | 37 => .draw .flex1
  | n => if n ≤ 38 then .undefined else .unknown

namespace Token

/-- The operator that is written in one byte. -/
def ofByte (b : UInt8) : Token :=
  match b.toNat with
  | 1 => .stem .hstem
  | 3 => .stem .vstem
  | 4 => .move .vmoveto
  | 5 => .draw .rlineto
  | 6 => .draw .hlineto
  | 7 => .draw .vlineto
  | 8 => .draw .rrcurveto
  | 10 => .call .inPrivate
  | 11 => .ret
  | 14 => .endchar
  | 18 => .stem .hstemhm
  | 19 => .mask .hint
  | 20 => .mask .counter
  | 21 => .move .rmoveto
  | 22 => .move .hmoveto
  | 23 => .stem .vstemhm
  | 24 => .draw .rcurveline
  | 25 => .draw .rlinecurve
  | 26 => .draw .vvcurveto
  | 27 => .draw .hhcurveto
  | 29 => .call .inAll
  | 30 => .draw .vhcurveto
  | 31 => .draw .hvcurveto
  | _ => .reserved

/-- An integer as a token. -/
def int (n : Int) : Token := .operand (.int (Int16.ofInt n))

/-- The token whose first byte is `b`, with the rest of it read from the bytes that follow. -/
def readAfter (b : UInt8) : Reader Token :=
  if b = 12 then (fun second => .escaped (.ofByte second)) <$> Cell.uint8.read
  else if b = 28 then (fun n => .operand (.int n)) <$> Cell.int16.read
  else if b < 32 then pure (ofByte b)
  else if b ≤ 246 then pure (int (IntForm.ofByte b))
  else if b ≤ 254 then (fun c => int (IntForm.ofBytes b c)) <$> Cell.uint8.read
  else (fun n => .operand (.fixed n)) <$> Cell.int32.read

theorem consumes_readAfter (b : UInt8) : Consumes (readAfter b) := by
  unfold readAfter
  repeat' split
  all_goals
    first
    | exact Consumes.map (Cell.consumes_read _) _
    | exact Consumes.pure _

end Token

end CompactFont.Charstring
