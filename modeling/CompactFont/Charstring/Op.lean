/-!
# Operations of a charstring

A decoded charstring is a list of instructions, each of which performs one operation. Besides the
operators of the Type 2 format there are loads, which put operands on the stack, and the marker of
the glyph width. The operations fall into families that are treated alike: loads, stem hints, hint
masks, operators that move, operators that draw, and arithmetic.
-/

namespace CompactFont.Charstring

/-- How a load holds the operands that it pushes. -/
inductive Load where
  /-- One integer. -/
  | int
  /-- One number with 16 bits after the point. -/
  | fixed
  /-- Two integers of 16 bits, the first in the high half. -/
  | shorts
  /-- Four integers of 8 bits, the first in the highest byte. -/
  | fourBytes
  /-- Three integers of 8 bits, the first in the highest byte; the lowest byte is not used. -/
  | threeBytes
  deriving DecidableEq

/-- The operators that declare stem hints. -/
inductive Stem where
  /-- Horizontal stems. -/
  | hstem
  /-- Vertical stems. -/
  | vstem
  /-- Vertical stems, where hint masks follow. -/
  | vstemhm
  /-- Horizontal stems, where hint masks follow. -/
  | hstemhm
  deriving DecidableEq

/-- What a mask over the stem hints is for. -/
inductive MaskKind where
  /-- It tells which hints are active. -/
  | hint
  /-- It tells which counters are controlled. -/
  | counter
  deriving DecidableEq

/-- How an instruction holds the bytes of a mask. -/
inductive MaskForm where
  /-- One byte, in the highest byte of the value. -/
  | one
  /-- Two bytes, in the highest bytes of the value. -/
  | two
  /-- Three bytes, in the highest bytes of the value. -/
  | three
  /-- Four bytes. -/
  | four
  /-- More than four bytes, in the loads before the instruction, four to a load. The value is how
  many they are. -/
  | many
  deriving DecidableEq

/-- The operators that start a contour. -/
inductive Move where
  /-- To a point given by both distances. -/
  | rmoveto
  /-- Along the horizontal. -/
  | hmoveto
  /-- Along the vertical. -/
  | vmoveto
  deriving DecidableEq

/-- The operators that draw lines and curves. -/
inductive Draw where
  /-- Lines. -/
  | rlineto
  /-- Lines along the horizontal and the vertical in turn. -/
  | hlineto
  /-- Lines along the vertical and the horizontal in turn. -/
  | vlineto
  /-- Curves. -/
  | rrcurveto
  /-- Curves that start and end along the horizontal. -/
  | hhcurveto
  /-- Curves that start along the horizontal and the vertical in turn, and end along the other. -/
  | hvcurveto
  /-- Curves, then a line. -/
  | rcurveline
  /-- Lines, then a curve. -/
  | rlinecurve
  /-- Curves that start along the vertical and the horizontal in turn, and end along the other. -/
  | vhcurveto
  /-- Curves that start and end along the vertical. -/
  | vvcurveto
  /-- A shallow dip of two curves. -/
  | flex
  /-- A dip whose ends and middle are horizontal. -/
  | hflex
  /-- A dip whose ends are at one height and whose middle is horizontal. -/
  | hflex1
  /-- A dip that ends level with its start, along the axis on which it extends further. -/
  | flex1
  deriving DecidableEq

/-- The operators of arithmetic, storage and choice. -/
inductive Arithmetic where
  | and | or | not | abs | add | sub | div | neg | eq | drop | put | get | ifelse | random | mul
  | sqrt | dup | exch | index | roll
  deriving DecidableEq

/-- Where a subroutine is looked up. -/
inductive SubrScope where
  /-- Among the subroutines of one Private DICT. -/
  | inPrivate
  /-- Among the subroutines of all fonts. -/
  | inAll
  deriving DecidableEq

/-- The operation of an instruction. -/
inductive Op where
  /-- Pushes operands. -/
  | load (form : Load)
  /-- Tells the width of the glyph. -/
  | width
  /-- Declares stem hints. -/
  | stem (kind : Stem)
  /-- Selects stem hints. -/
  | mask (kind : MaskKind) (form : MaskForm)
  /-- Starts a contour. -/
  | move (kind : Move)
  /-- Draws. -/
  | draw (kind : Draw)
  /-- Ends the glyph. -/
  | endchar
  /-- Ends a subroutine. -/
  | ret
  /-- Calls a subroutine. -/
  | call (scope : SubrScope)
  /-- Computes. -/
  | arithmetic (kind : Arithmetic)
  deriving DecidableEq

/-- The name of a stem operator. -/
def Stem.name : Stem → String
  | .hstem => "hstem"
  | .vstem => "vstem"
  | .vstemhm => "vstemhm"
  | .hstemhm => "hstemhm"

/-- The name of a mask operator. -/
def MaskKind.name : MaskKind → String
  | .hint => "hintmask"
  | .counter => "cntrmask"

/-- The name of a load. -/
def Load.name : Load → String
  | .int => "load_int"
  | .fixed => "load_float"
  | .shorts => "load_short2"
  | .fourBytes => "load_sbyte4"
  | .threeBytes => "load_sbyte3"

/-- The name of an operator that moves. -/
def Move.name : Move → String
  | .rmoveto => "rmoveto"
  | .hmoveto => "hmoveto"
  | .vmoveto => "vmoveto"

/-- The name of an operator that draws. -/
def Draw.name : Draw → String
  | .rlineto => "rlineto"
  | .hlineto => "hlineto"
  | .vlineto => "vlineto"
  | .rrcurveto => "rrcurveto"
  | .hhcurveto => "hhcurveto"
  | .hvcurveto => "hvcurveto"
  | .rcurveline => "rcurveline"
  | .rlinecurve => "rlinecurve"
  | .vhcurveto => "vhcurveto"
  | .vvcurveto => "vvcurveto"
  | .flex => "flex"
  | .hflex => "hflex"
  | .hflex1 => "hflex1"
  | .flex1 => "flex1"

/-- The name of an arithmetic operator. -/
def Arithmetic.name : Arithmetic → String
  | .and => "and"
  | .or => "or"
  | .not => "not"
  | .abs => "abs"
  | .add => "add"
  | .sub => "sub"
  | .div => "div"
  | .neg => "neg"
  | .eq => "eq"
  | .drop => "drop"
  | .put => "put"
  | .get => "get"
  | .ifelse => "ifelse"
  | .random => "random"
  | .mul => "mul"
  | .sqrt => "sqrt"
  | .dup => "dup"
  | .exch => "exch"
  | .index => "index"
  | .roll => "roll"

namespace Op

/-- The name of an operation. -/
def name : Op → String
  | .load form => form.name
  | .width => "width"
  | .stem s => s.name
  | .mask kind _ => kind.name
  | .move m => m.name
  | .draw d => d.name
  | .endchar => "endchar"
  | .ret => "return"
  | .call .inPrivate => "callsubr"
  | .call .inAll => "callgsubr"
  | .arithmetic a => a.name

/-- The operation does nothing but push operands. -/
def isLoad : Op → Bool
  | .load _ => true
  | _ => false

/-- The operation selects stem hints. -/
def isMask : Op → Bool
  | .mask _ _ => true
  | _ => false

end Op

end CompactFont.Charstring
