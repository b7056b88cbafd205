import CompactFont.Bytes.Packed
import CompactFont.Charset.Run

/-!
# Encodings

An encoding gives character codes to the glyphs of a font that is not CID-keyed. It is one of two
predefined encodings or is written in the font, as a list of codes or as runs of them. A glyph that
has further codes is named, with each of them, in a supplement; the high bit of the format says that
there are supplements.
-/

namespace CompactFont

/-- A further code of a glyph, which is named by the SID of its name. -/
structure Supplement where
  /-- The code. -/
  code : UInt8
  /-- The SID of the name of the glyph. -/
  sid : UInt16
  deriving DecidableEq

/-- A supplement as it is written. -/
def Supplement.cell : Cell Supplement :=
  (Cell.uint8.pair Cell.uint16).rename (fun p => ⟨p.1, p.2⟩) (fun s => (s.code, s.sid)) fun _ => rfl

/-- The codes of glyphs, in the order of the glyphs. -/
inductive EncodingCodes where
  /-- Format 0: one code after the other. -/
  | list (codes : List UInt8)
  /-- Format 1: runs of codes. -/
  | runs (runs : List (Run UInt8 UInt8))

/-- An encoding that is written in the font. -/
structure CustomEncoding where
  /-- The codes of glyphs. -/
  codes : EncodingCodes
  /-- The further codes. -/
  supplements : List Supplement

/-- The number of a format of codes. -/
def EncodingCodes.format : EncodingCodes → UInt8
  | .list _ => 0
  | .runs _ => 1

namespace CustomEncoding

/-- The bit of the format that says that there are supplements. -/
def supplementBit : UInt8 := 0x80

/-- Reads a list whose length is in the byte before it. -/
def readCounted {α : Type} (cell : Cell α) : Reader (List α) := do
  Packed.readList cell (← Cell.uint8.read).toNat

/-- Reads an encoding. -/
def read : TableReader CustomEncoding := do
  let format ← (Cell.uint8.read : Reader UInt8)
  let kind := format &&& ~~~supplementBit
  let codes ←
    if kind = 0 then EncodingCodes.list <$> (readCounted Cell.uint8 : Reader _)
    else if kind = 1 then EncodingCodes.runs <$> (readCounted Run.bytes : Reader _)
    else throw (.unsupportedEncodingFormat format)
  if format &&& supplementBit = supplementBit then
    return ⟨codes, ← (readCounted Supplement.cell : Reader _)⟩
  else return ⟨codes, []⟩

/-- A list with its length in the byte before it. -/
def encodeCounted {α : Type} (cell : Cell α) (items : List α) : List UInt8 :=
  UInt8.ofNat items.length :: items.flatMap cell.encode

/-- An encoding as it is written, with a list of supplements or, if there are none, without. -/
def encode (encoding : CustomEncoding) (withSupplements : Bool) : List UInt8 :=
  let codes := match encoding.codes with
    | .list codes => encodeCounted Cell.uint8 codes
    | .runs runs => encodeCounted Run.bytes runs
  if withSupplements then
    let supplements := encodeCounted Supplement.cell encoding.supplements
    (encoding.codes.format ||| supplementBit) :: (codes ++ supplements)
  else encoding.codes.format :: codes

end CustomEncoding

/-- An encoding. -/
inductive Encoding where
  /-- The standard encoding. -/
  | standard
  /-- The encoding of expert fonts. -/
  | expert
  /-- An encoding that is written in the font. -/
  | custom (encoding : CustomEncoding)

end CompactFont
