import CompactFont.Charstring.Token
import CompactFont.Fault

/-!
# Progress of decoding

While a charstring is decoded, some things have to be remembered besides the instructions that were
made: how many operands wait for an operator, since the first of them may be the width of the glyph,
and how many stem hints were declared, since that is how long masks are. `Progress` holds them, and
each kind of token has one function that tells how it changes them.

The width is an extra operand of the first operator that clears the stack. Stem operators take pairs
of operands, so there it is the first of an odd number; it is looked for only until a stem hint was
declared or the path was entered.

Operands before a mask that follow stem hints are stem hints too, of vertical stems. They are
counted until the first operator that is not for stem hints.
-/

namespace CompactFont.Charstring

/-- What is known in the course of decoding. -/
structure Progress where
  /-- The instructions that were made, the latest first. -/
  made : List Instruction := []
  /-- How many stem hints were declared. -/
  stems : Nat := 0
  /-- A stem operator or a mask was found. -/
  stemFound : Bool := false
  /-- An operator that moves or draws was found. -/
  pathEntered : Bool := false
  /-- How many operands may be for stem hints: those since the latest stem operator, while only stem
  operators were found. -/
  stemOperands : Nat := 0
  /-- How many operands there are since the latest operator. -/
  pending : Nat := 0
  /-- Operands may still be for stem hints. -/
  countsStems : Bool := true
  /-- The latest stem operator. -/
  latestStem : Option Stem := none

namespace Progress

/-- Makes one more instruction. -/
def make (p : Progress) (i : Instruction) : Progress := { p with made := i :: p.made }

/-- The instructions that were made, in order. -/
def instructions (p : Progress) : List Instruction := p.made.reverse

/-- Pushes an operand. -/
def operand (p : Progress) (value : Operand) : Progress :=
  { p.make value.load with
    pending := p.pending + 1
    stemOperands := if p.countsStems then p.stemOperands + 1 else p.stemOperands }

/-- After an operator that is not for stem hints, no operand waits, and none counts as a stem hint
from there on. -/
def settle (p : Progress) : Progress :=
  { p with countsStems := false, stemOperands := 0, pending := 0 }

/-- Turns the first operand that waits into the width. It must be an integer. -/
def takeWidth (p : Progress) : Except FontFault Progress :=
  match p.pending with
  | 0 => .error .widthNotInteger
  | later + 1 =>
    match p.made[later]? with
    | some i =>
      if i.isInt then .ok { p with made := p.made.set later (.withValue .width i.value) }
      else .error .widthNotInteger
    | none => .error .widthNotInteger

/-- Turns the first operand that waits into the width, under a condition. -/
def takeWidthIf (p : Progress) (condition : Bool) : Except FontFault Progress :=
  if condition then p.takeWidth else .ok p

/-- The width can still come. -/
def widthAllowed (p : Progress) : Bool := !p.stemFound && !p.pathEntered

/-- Draws. -/
def draw (p : Progress) (kind : Draw) : Progress :=
  { p.make (.plain (.draw kind)) with pathEntered := true }.settle

/-- Performs an operator that is written in two bytes. -/
def escaped (p : Progress) : Escaped → Except FontFault Progress
  | .draw kind => .ok (p.draw kind)
  | .arithmetic kind => .ok (p.make (.plain (.arithmetic kind))).settle
  | .undefined => .error .undefinedOperator
  | .unknown => .ok p.settle

/-- Ends the glyph. It takes an even number of operands, or none. -/
def endchar (p : Progress) : Except FontFault Progress := do
  let p ← p.takeWidthIf (p.widthAllowed && p.pending % 2 == 1)
  return (p.make (.plain .endchar)).settle

/-- The operands before an operator that moves include the width. -/
def moveHasWidth (p : Progress) : Move → Bool
  | .rmoveto => p.pending % 2 == 1
  | .hmoveto | .vmoveto => 1 < p.pending

/-- Starts a contour. -/
def move (p : Progress) (kind : Move) : Except FontFault Progress := do
  let p ← p.takeWidthIf (p.widthAllowed && p.moveHasWidth kind)
  return { p.make (.plain (.move kind)) with pathEntered := true }.settle

/-- Takes the width off the operands for stem hints, when they are odd in number. -/
def takeStemWidth (p : Progress) : Except FontFault Progress := do
  return { ← p.takeWidth with stemOperands := p.stemOperands - 1 }

/-- Counts the operands for stem hints, two to a hint. -/
def countStems (p : Progress) : Progress := { p with stems := p.stems + p.stemOperands / 2 }

/-- Declares stem hints. -/
def stem (p : Progress) (kind : Stem) : Except FontFault Progress := do
  let p ←
    if p.stemOperands % 2 = 1 then
      if p.stemFound then throw .wrongOperandCount else p.takeStemWidth
    else pure p
  return { p.countStems.make (.plain (.stem kind)) with
    stemOperands := 0
    pending := 0
    stemFound := true
    latestStem := some kind }

/-- Vertical stems can be left out before a mask that directly follows stem hints of other kinds. -/
def impliesVstem (p : Progress) : Bool :=
  p.stemFound && p.countsStems &&
    match p.latestStem with
    | some .hstem | some .hstemhm | some .vstemhm => true
    | some .vstem | none => false

/-- Puts in the vertical stems that are left out. -/
def implyVstem (p : Progress) : Progress :=
  if p.impliesVstem then
    { p.countStems.make (.plain (.stem .vstem)) with latestStem := some .vstem, stemOperands := 0 }
  else p

/-- Before a mask, with no stem hints declared, the operands that wait are for stem hints. -/
def stemsForHintMask (p : Progress) : Except FontFault Progress :=
  let p := p.implyVstem
  if p.stems = 0 then
    if p.stemFound then .error .wrongOperandCount
    else do
      let p ← if p.stemOperands % 2 = 1 ∧ !p.pathEntered then p.takeStemWidth else pure p
      let p := { p with stems := p.stemOperands / 2 }
      return { p with stemFound := p.stems != 0 }
  else .ok p

/-- Before a counter mask, the operands that wait are for stem hints. -/
def stemsForCounterMask (p : Progress) : Except FontFault Progress :=
  if p.stems = 0 ∧ p.stemFound then .error .wrongOperandCount
  else .ok { p.countStems with stemFound := true }

/-- Before a mask, the stem hints are complete. -/
def stemsForMask (p : Progress) : MaskKind → Except FontFault Progress
  | .hint => p.stemsForHintMask
  | .counter => p.stemsForCounterMask

/-- How many bytes a mask has: one bit for each stem hint. -/
def maskLength (p : Progress) : Nat := (p.stems + 7) / 8

/-- The bytes of a mask. Their number has to be one that a value can hold. -/
def maskBytes (p : Progress) : Reader (List UInt8) :=
  if p.maskLength < 2147483648 then Reader.take p.maskLength else throw .limitExceeded

theorem consumes_maskBytes (p : Progress) : Consumes p.maskBytes := by
  unfold maskBytes
  split
  · exact Consumes.take _
  · exact Consumes.throw _

/-- Up to four bytes of a mask as a value, the first one highest. -/
def maskValue (bytes : List UInt8) : Int32 :=
  Int32.ofNat (BigEndian.ofBytes (bytes ++ List.replicate (4 - bytes.length) 0))

/-- The form of a mask of `length` bytes. -/
def maskForm (length : Nat) : MaskForm :=
  match length with
  | 1 => .one
  | 2 => .two
  | 3 => .three
  | 4 => .four
  | _ => .many

/-- The bytes of a mask, four at a time. -/
def maskChunks (bytes : List UInt8) : List (List UInt8) :=
  match bytes with
  | [] => []
  | b :: bytes => (b :: bytes.take 3) :: maskChunks (bytes.drop 3)
termination_by bytes.length
decreasing_by simp only [List.length_drop, List.length_cons]; omega

/-- The instructions that hold a mask. -/
def maskInstructions (kind : MaskKind) (bytes : List UInt8) : List Instruction :=
  match maskForm bytes.length with
  | .many =>
    (maskChunks bytes).map (fun chunk => .int (maskValue chunk)) ++
      [.withValue (.mask kind .many) (Int32.ofNat bytes.length)]
  | form => [.withValue (.mask kind form) (maskValue bytes)]

/-- Selects stem hints by a mask. No instruction is made for a mask of no bytes. -/
def mask (p : Progress) (kind : MaskKind) (bytes : List UInt8) : Progress :=
  if bytes.isEmpty then p.settle
  else { p with made := (maskInstructions kind bytes).reverse ++ p.made }.settle

/-- Takes back the latest instruction, which must be the load of an integer, as the operand of a
call. -/
def takeCallOperand (p : Progress) : Except FontFault (Int32 × Progress) :=
  match p.made with
  | i :: made =>
    if i.isInt then
      .ok (i.value, { p with
        made
        pending := p.pending - 1
        stemOperands := if p.countsStems then p.stemOperands - 1 else p.stemOperands })
    else .error .callOperandNotInteger
  | [] => .error .callOperandNotInteger

end Progress

end CompactFont.Charstring
