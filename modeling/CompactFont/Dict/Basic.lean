import CompactFont.Dict.Token

/-!
# DICT

A DICT holds entries, each an operator with its operands. It is written as the operands of an entry
followed by its operator, one entry after the other. An entry of an unknown operator, and one whose
operator does not accept so many operands, is dropped with its operands; so are operands that no
operator follows. When an operator is repeated, its first entry counts.

An operator that has no entry can still have a value: each kind of DICT has its default operands.
`ofBytes` reads a DICT and `encode` writes its entries.
-/

namespace CompactFont

/-- The three kinds of DICT. -/
inductive DictKind where
  /-- The DICT of a whole font. -/
  | top
  /-- The DICT of a part of a CID-keyed font. -/
  | font
  /-- The DICT of widths, hints and local subroutines. -/
  | priv
  deriving DecidableEq

/-- Operators with their operands. -/
structure Dict where
  /-- The kind, which decides the defaults. -/
  kind : DictKind
  /-- The entries, in the order in which they are written. -/
  entries : List (Operator × List Operand)

namespace DictKind

/-- The operands of an operator that has no entry in a Top DICT. -/
def topDefault? : Operator → Option (List Operand)
  | .isFixedPitch | .italicAngle | .paintType | .strokeWidth | .charset | .encoding
  | .cidFontVersion | .cidFontRevision | .cidFontType => some [.integer 0]
  | .underlinePosition => some [.integer (-100)]
  | .underlineThickness => some [.integer 50]
  | .charstringType => some [.integer 2]
  | .fontMatrix =>
    let thousandth := .real [0x0a, 0x00, 0x1f]
    some [thousandth, .integer 0, .integer 0, thousandth, .integer 0, .integer 0]
  | .fontBBox => some [.integer 0, .integer 0, .integer 0, .integer 0]
  | .cidCount => some [.integer 8720]
  | _ => none

/-- The operands of an operator that has no entry in a Private DICT. -/
def privateDefault? : Operator → Option (List Operand)
  | .forceBold | .languageGroup | .initialRandomSeed | .strokeWidth | .defaultWidthX
  | .nominalWidthX => some [.integer 0]
  | .blueScale => some [.real [0x0a, 0x03, 0x96, 0x25, 0xff]]
  | .blueShift => some [.integer 7]
  | .blueFuzz => some [.integer 1]
  | .expansionFactor => some [.real [0x0a, 0x06, 0xff]]
  | _ => none

/-- The operands of an operator that has no entry. -/
def default? : DictKind → Operator → Option (List Operand)
  | .top, op => topDefault? op
  | .font, _ => none
  | .priv, op => privateDefault? op

end DictKind

namespace Dict

/-- The DICT that has no entries. -/
def empty (kind : DictKind) : Dict := ⟨kind, []⟩

/-- The entries that tokens make, given the operands that no operator has taken yet. -/
def entriesOf (operands : List Operand) : List Token → List (Operator × List Operand)
  | [] => []
  | .operand value :: rest => entriesOf (operands ++ [value]) rest
  | .operator key :: rest =>
    match Operator.ofKey? key with
    | some op =>
      if op.kind.accepts operands.length then (op, operands) :: entriesOf [] rest
      else entriesOf [] rest
    | none => entriesOf [] rest

/-- The DICT that is written in some bytes, all of them. -/
def ofBytes (kind : DictKind) (bytes : List UInt8) : Except ReadFault Dict := do
  return ⟨kind, entriesOf [] (← tokens bytes)⟩

/-- Entries as they are written, each operand with the form for it if it is an integer. -/
def encode (entries : List (Operator × List (Operand × IntForm))) : List UInt8 :=
  entries.flatMap fun (op, operands) =>
    operands.flatMap (fun (value, form) => value.encode form) ++ op.encode

/-- The operands in the first entry of an operator. -/
def get? (d : Dict) (op : Operator) : Option (List Operand) :=
  (d.entries.find? fun entry => entry.1 = op).map (·.2)

/-- The operands of an operator, or else its defaults. -/
def getWithDefault? (d : Dict) (op : Operator) : Option (List Operand) :=
  d.get? op <|> d.kind.default? op

/-- The value of an operator whose operand is one integer. -/
def int? (d : Dict) (op : Operator) : Option (Except ReadFault Int32) :=
  (d.getWithDefault? op).map fun
    | [.integer n] => .ok n
    | _ => .error .badValue

/-- The value of an operator whose operand is one number. -/
def float? (d : Dict) (op : Operator) : Option (Except ReadFault Float) :=
  (d.getWithDefault? op).map fun
    | [value] => value.toFloat
    | _ => .error .badValue

/-- The number of a string that is the operand of an operator. -/
def sid? (d : Dict) (op : Operator) : Option UInt16 :=
  match d.getWithDefault? op with
  | some [value] => value.toSid.toOption
  | _ => none

/-- The running sums of operands, after a first value. -/
def runningSums (sum : Float) : List Operand → Except ReadFault (List Float)
  | [] => .ok []
  | value :: rest => do
    let sum := sum + (← value.toFloat)
    return sum :: (← runningSums sum rest)

/-- The values of an operator whose operands are each relative to the one before. -/
def deltas? (d : Dict) (op : Operator) : Option (Except ReadFault (List Float)) :=
  (d.getWithDefault? op).map (runningSums 0)

/-- The size and the place of the Private DICT, if there is one. -/
def privateRange (d : Dict) : Except ReadFault (Option (Nat × Nat)) :=
  match d.get? .privateDict with
  | some [.integer size, .integer offset] =>
    return some (← offsetOfInt32 size, ← offsetOfInt32 offset)
  | some _ => throw .badValue
  | none => return none

end Dict

end CompactFont
