import CompactFont.Charset.Basic
import CompactFont.Charstring.Compaction
import CompactFont.Dict.Basic
import CompactFont.Encoding
import CompactFont.FdSelect
import CompactFont.Font.Header
import CompactFont.Index
import CompactFont.Outline.Evaluator
import CompactFont.Text.StandardString

/-!
# Fonts

A font set is what a table holds: a header, names, strings, and one font. The font has its DICTs, its
glyphs, and what names and encodes them. In a CID-keyed font the glyphs share out over Font DICTs,
each with a Private DICT of its own; in any other font there is one Private DICT.

A glyph has its instructions, compacted or not. If the first of them tells the width of the glyph,
that width is relative to a nominal width; a glyph that tells no width has the default width. Both
stand in the Private DICT that belongs to the glyph.
-/

namespace CompactFont

open Charstring (Instruction)

/-- A glyph. -/
structure Glyph where
  /-- The number of the glyph. -/
  number : UInt16
  /-- The number of its Font DICT, in a font with FDSelect. -/
  fontDict : Option UInt8
  /-- Its name. -/
  name : Option String
  /-- The SID of its name, or its CID; zero when the charset has none for it. -/
  sid : UInt16
  /-- Its instructions. -/
  instructions : List Instruction
  /-- They are compacted. -/
  compacted : Bool

namespace Glyph

/-- The instructions with a load for each operand. -/
def expanded (g : Glyph) : List Instruction :=
  if g.compacted then Charstring.expand g.instructions else g.instructions

/-- The width, relative to the nominal width, if the first instruction tells it. -/
def widthDelta (g : Glyph) : Option Int32 :=
  match g.instructions with
  | i :: _ => if i.op = .width then some i.value else none
  | [] => none

end Glyph

/-- The widths that a Private DICT states. -/
structure Widths where
  /-- The width of glyphs that tell none. -/
  default : Float
  /-- What the widths that glyphs tell are relative to. -/
  nominal : Float

/-- The width of a glyph. -/
def Widths.advance (w : Widths) (delta : Option Int32) : Float :=
  match delta with
  | some delta => w.nominal + floatOfInt32 delta
  | none => w.default

/-- A Font DICT, with the Private DICT that it points to. -/
structure FontDict where
  /-- The name. -/
  name : Option String
  /-- The SID of the name. -/
  nameSid : Option UInt16
  /-- The number of bytes of the Private DICT. -/
  privateSize : Nat
  /-- Where the Private DICT is. -/
  privateOffset : Nat
  /-- The Private DICT. -/
  privateDict : Dict
  /-- The widths that it states. -/
  widths : Widths
  /-- Its subroutines. -/
  subroutines : Option Index

/-- What makes a font CID-keyed. -/
structure CidInfo where
  /-- Who issued the character collection. -/
  registry : Option String
  /-- The name of the character collection. -/
  ordering : Option String
  /-- The supplement of the character collection. -/
  supplement : Float
  /-- The version of the font. -/
  version : Float
  /-- The number of CIDs. -/
  count : Nat
  /-- Where the Font DICTs are; zero if there are none. -/
  fdArrayOffset : Nat
  /-- Where FDSelect is; zero if there is none. -/
  fdSelectOffset : Nat
  /-- The Font DICTs of the glyphs. -/
  fdSelect : Option FdSelect

/-- What the Top DICT tells in words. -/
structure FontTexts where
  /-- The version. -/
  version : Option String
  /-- The trademark notice. -/
  notice : Option String
  /-- The notice of rights. -/
  copyright : Option String
  /-- The full name. -/
  fullName : Option String
  /-- The family name. -/
  familyName : Option String
  /-- The weight. -/
  weight : Option String

/-- What the Top DICT tells of the looks of the font. -/
structure FontMetrics where
  /-- Where the underline is. -/
  underlinePosition : Float
  /-- How thick the underline is. -/
  underlineThickness : Float
  /-- The slant. -/
  italicAngle : Float
  /-- All glyphs are of one width. -/
  isFixedPitch : Bool
  /-- The least and largest coordinates: left, bottom, right, top. -/
  boundingBox : List Float

/-- A Private DICT and what belongs to it. -/
structure FontPrivate where
  /-- The DICT; a CID-keyed font has none of its own. -/
  dict : Option Dict
  /-- The subroutines. -/
  subroutines : Option Index
  /-- The widths that the DICT states; zero if there is none. -/
  widths : Widths

/-- A font. -/
structure Font where
  /-- The name. -/
  name : String
  /-- What the Top DICT tells in words. -/
  texts : FontTexts
  /-- What the Top DICT tells of the looks of the font. -/
  metrics : FontMetrics
  /-- The Top DICT. -/
  topDict : Dict
  /-- What makes the font CID-keyed, if it is. -/
  cid : Option CidInfo
  /-- The Font DICTs, of a CID-keyed font. -/
  fontDicts : Array FontDict
  /-- The Private DICT, of a font that is not CID-keyed. -/
  priv : FontPrivate
  /-- The subroutines of all fonts. -/
  globalSubroutines : Index
  /-- The glyphs. -/
  glyphs : Array Glyph
  /-- The charset. -/
  charset : Charset
  /-- The encoding, of a font that is not CID-keyed. -/
  encoding : Option Encoding

namespace Font

/-- The font is CID-keyed. -/
def isCidKeyed (f : Font) : Bool := f.cid.isSome

/-- The glyph of a number. -/
def glyph? (f : Font) (number : UInt16) : Option Glyph := f.glyphs[number.toNat]?

/-- The first glyph of a name. -/
def glyphNamed? (f : Font) (name : String) : Option Glyph :=
  f.glyphs.find? fun g => g.name == some name

/-- The glyphs that have a name, with their names. -/
def glyphNames (f : Font) : List (UInt16 × String) :=
  f.glyphs.toList.filterMap fun g => g.name.map (g.number, ·)

/-- The widths that belong to a glyph. -/
def widthsOf? (f : Font) (g : Glyph) : Option Widths :=
  match g.fontDict with
  | some number => f.fontDicts[number.toNat]?.map (·.widths)
  | none => some f.priv.widths

/-- The width of a glyph. -/
def advance? (f : Font) (number : UInt16) : Option Float := do
  let g ← f.glyph? number
  let widths ← f.widthsOf? g
  return widths.advance g.widthDelta

/-- Evaluates the outline of a glyph to a scale. -/
def outline (f : Font) (number : UInt16) (e : Evaluator) (scale : Float32) : Evaluation × Evaluator :=
  match f.glyph? number with
  | some g => e.evaluate scale g.instructions
  | none => (⟨[], some (.read .badIndex)⟩, e)

end Font

/-- What a table holds. -/
structure FontSet where
  /-- The header. -/
  header : Header
  /-- The names of the fonts. -/
  names : List String
  /-- The strings that are not standard strings, in order. -/
  strings : Array String
  /-- The fonts; there is one. -/
  fonts : List Font

/-- The string of an SID. -/
def FontSet.string? (s : FontSet) (sid : UInt16) : Option String := stringOfSid? s.strings sid

end CompactFont
