import CompactFont.Bytes.IntForm
import CompactFont.Dict.Operand
import CompactFont.Dict.Operator

/-!
# Tokens of a DICT

The bytes of a DICT are a sequence of tokens: operands and the keys of operators. The first byte of
a token tells which it is and how it goes on. `tokens` splits bytes into tokens, to their end.
`Operator.encode` and `Operand.encode` write the tokens, an integer in any form that has room for it.
-/

namespace CompactFont

/-- An operator as it is written, in one byte or in two. -/
def Operator.encode (op : Operator) : List UInt8 :=
  if op.key < 256 then [op.key.toUInt8] else [12, op.key.toUInt8]

namespace Operand

/-- An operand as it is written, an integer in the given form. -/
def encode (form : IntForm) : Operand → List UInt8
  | .integer n => form.encode n.toInt
  | .real bytes => 30 :: bytes

/-- An operand can be written: an integer if the form has room for it, a real number if its last byte,
and no other, has the nibble that ends it. -/
def Fits (form : IntForm) : Operand → Prop
  | .integer n => form.Fits n.toInt
  | .real bytes => bytes.findIdx (Reader.hasNibble RealNumber.terminator) + 1 = bytes.length

instance (form : IntForm) : (value : Operand) → Decidable (value.Fits form)
  | .integer n => inferInstanceAs (Decidable (form.Fits n.toInt))
  | .real _ => inferInstanceAs (Decidable (_ = _))

end Operand

namespace Dict

/-- A token of a DICT. -/
inductive Token where
  /-- The key of an operator. -/
  | operator (key : UInt16)
  /-- An operand. -/
  | operand (value : Operand)
  deriving DecidableEq

namespace Token

/-- An integer as a token. -/
def integer (n : Int) : Token := .operand (.integer (Int32.ofInt n))

/-- The token whose first byte is `b`, with the rest of it read from the bytes that follow. -/
def readAfter (b : UInt8) : Reader Token :=
  if b = 12 then (fun second => .operator (Operator.escaped second)) <$> Cell.uint8.read
  else if b ≤ 21 then pure (.operator b.toUInt16)
  else if b = 28 then (fun n => .operand (.integer n.toInt32)) <$> Cell.int16.read
  else if b = 29 then (fun n => .operand (.integer n)) <$> Cell.int32.read
  else if b = 30 then
    (fun bytes => .operand (.real bytes)) <$> Reader.untilNibble RealNumber.terminator
  else if b < 32 ∨ b = 255 then throw .badValue
  else if b ≤ 246 then pure (integer (IntForm.ofByte b))
  else (fun c => integer (IntForm.ofBytes b c)) <$> Cell.uint8.read

theorem consumes_readAfter (b : UInt8) : Consumes (readAfter b) := by
  unfold readAfter
  repeat' split
  all_goals
    first
    | exact Consumes.map (Cell.consumes_read _) _
    | exact Consumes.map (Consumes.untilNibble _) _
    | exact Consumes.pure _
    | exact Consumes.throw _

end Token

/-- The tokens that bytes are made of. -/
def tokens (bytes : List UInt8) : Except ReadFault (List Token) :=
  match bytes with
  | [] => .ok []
  | b :: bytes =>
    match h : Token.readAfter b bytes with
    | .error fault => .error fault
    | .ok (token, rest) =>
      have : rest.length ≤ bytes.length := (Token.consumes_readAfter b).length_le h
      match tokens rest with
      | .error fault => .error fault
      | .ok more => .ok (token :: more)
termination_by bytes.length

end Dict

end CompactFont
