import CompactFont.Bytes.Cursor
import CompactFont.Charstring.Decoding
import CompactFont.Font.Basic
import CompactFont.Text.Utf8

/-!
# Reading a font set

The parts of a table are read in a fixed order, and the first fault ends the reading: the header and
the four INDEXes after it, the numbers of the Top DICT, what makes the font CID-keyed, its DICTs and
subroutines, the glyphs, the charset, and last the encoding. Offsets in the Top DICT are from the
start of the table.

The charstrings are taken off the data of their INDEX one after the other, each with the length that
its offsets give it.
-/

namespace CompactFont

open Charstring (Instruction SubroutineSets Subroutines Compactor)

/-- How a font is read. -/
structure ReadOptions where
  /-- Instructions are compacted. -/
  compactInstructions : Bool := true

namespace FontSet

/-- The value read at an offset of the table. -/
def readAt {ε α : Type} (table : List UInt8) (offset : Nat) (r : ReaderOf ε α) : Except ε α :=
  Prod.fst <$> r (table.drop offset)

/-- The Private DICT in a place of the table; it has no entries if its size is zero. -/
def readPrivateDict (table : List UInt8) (size offset : Nat) : Except ReadFault Dict :=
  if size = 0 then return Dict.empty .priv
  else do Dict.ofBytes .priv (← (Scope.ofBytes table).window offset size).bytes

/-- The subroutines of a Private DICT. Their offset is from the start of the Private DICT. -/
def readSubroutines (table : List UInt8) (dict : Dict) (dictOffset : Nat) :
    Except ReadFault (Option Index) :=
  match dict.int? .subrs with
  | none => return none
  | some offset => do
    let offset ← offsetOfInt32 (← offset)
    return some (← readAt table (dictOffset + offset) Index.read)

/-- A number of a DICT, or else another one. -/
def floatOr (dict : Dict) (op : Operator) (other : Float) : Except ReadFault Float :=
  (dict.float? op).getD (.ok other)

/-- An integer of a DICT, or else another one. -/
def intOr (dict : Dict) (op : Operator) (other : Int32) : Except ReadFault Int32 :=
  (dict.int? op).getD (.ok other)

/-- An offset in a DICT, or else zero. -/
def offsetOrZero (dict : Dict) (op : Operator) : Except ReadFault Nat := do
  offsetOfInt32 (← intOr dict op 0)

/-- The widths that a Private DICT states. -/
def readWidths (dict : Dict) : Except ReadFault Widths := do
  let default ← floatOr dict .defaultWidthX 0
  let nominal ← floatOr dict .nominalWidthX 0
  return ⟨default, nominal⟩

/-- The bounding box of a font, which is given by four numbers. -/
def readBoundingBox (top : Dict) : Except ReadFault (List Float) :=
  match top.getWithDefault? .fontBBox with
  | some [left, bottom, right, upper] => [left, bottom, right, upper].mapM Operand.toFloat
  | some _ => throw .badValue
  | none => return [0, 0, 0, 0]

/-- What makes a font CID-keyed. A font is CID-keyed if its Top DICT states a registry, an ordering
and a supplement. -/
def readCid (table : List UInt8) (top : Dict) (strings : Array String) :
    Except FontFault (Option CidInfo) := do
  match top.get? .ros with
  | none => return none
  | some [registry, ordering, supplement] =>
    let registry ← registry.toSid
    let ordering ← ordering.toSid
    let supplement ← supplement.toFloat
    let version ← floatOr top .cidFontVersion 0
    let count ← offsetOfInt32 (← intOr top .cidCount 8720)
    let fdArrayOffset ← offsetOrZero top .fdArray
    let fdSelectOffset ← offsetOrZero top .fdSelect
    let fdSelect ←
      if fdSelectOffset = 0 then pure none else some <$> readAt table fdSelectOffset FdSelect.read
    return some
      { registry := stringOfSid? strings registry
        ordering := stringOfSid? strings ordering
        supplement, version, count, fdArrayOffset, fdSelectOffset, fdSelect }
  | some _ => throw (.read .badValue)

/-- A Font DICT, from its bytes. -/
def readFontDict (table : List UInt8) (strings : Array String) (bytes : List UInt8) :
    Except ReadFault FontDict := do
  let dict ← Dict.ofBytes .font bytes
  let nameSid := dict.sid? .fontName
  let (privateSize, privateOffset) := (← dict.privateRange).getD (0, 0)
  let privateDict ← readPrivateDict table privateSize privateOffset
  let subroutines ← readSubroutines table privateDict privateOffset
  let widths ← readWidths privateDict
  return { name := nameSid.bind (stringOfSid? strings), nameSid, privateSize, privateOffset,
           privateDict, widths, subroutines }

/-- The Font DICTs of a CID-keyed font. -/
def readFontDicts (table : List UInt8) (cid : Option CidInfo) (strings : Array String) :
    Except ReadFault (List FontDict) :=
  match cid with
  | none => return []
  | some cid =>
    if cid.fdArrayOffset = 0 then return []
    else do (← readAt table cid.fdArrayOffset Index.read).objects.mapM (readFontDict table strings)

/-- The Private DICT of a font. A CID-keyed font has none of its own. -/
def readFontPrivate (table : List UInt8) (cid : Option CidInfo) (top : Dict) :
    Except ReadFault FontPrivate :=
  match cid with
  | some _ => return ⟨none, none, ⟨0, 0⟩⟩
  | none => do
    match ← top.privateRange with
    | none => return ⟨none, none, ⟨0, 0⟩⟩
    | some (size, offset) =>
      let dict ← readPrivateDict table size offset
      let subroutines ← readSubroutines table dict offset
      return ⟨some dict, subroutines, ← readWidths dict⟩

/-! ### Glyphs -/

/-- The subroutines that glyphs can call: those of all fonts, those of the font, and those of each of
its Font DICTs. -/
structure SubroutineSources where
  /-- The subroutines of all fonts. -/
  inAll : Index
  /-- The subroutines of the Private DICT of the font. -/
  inFont : Option Index
  /-- The subroutines of the Private DICTs of the Font DICTs. -/
  inFontDicts : Array (Option Index)

/-- The subroutines that a glyph can call, given its Font DICT. -/
def SubroutineSources.sets (sources : SubroutineSources) (fontDict : Option UInt8) :
    Except FontFault SubroutineSets :=
  match fontDict with
  | none => return ⟨⟨sources.inAll⟩, sources.inFont.map Subroutines.mk⟩
  | some number =>
    match sources.inFontDicts[number.toNat]? with
    | some inPrivate => return ⟨⟨sources.inAll⟩, inPrivate.map Subroutines.mk⟩
    | none => throw (.read .badIndex)

/-- The Font DICT of a glyph, and the place in FDSelect after it, in a font with FDSelect. -/
def selectFontDict (selector : Option Selector) (glyph : UInt16) :
    Except FontFault (Option UInt8 × Option Selector) :=
  match selector with
  | none => return (none, none)
  | some selector =>
    match selector.selectFor glyph with
    | (.ok fontDict, selector) => return (some fontDict, some selector)
    | (.error fault, _) => throw fault

/-- Decodes the charstrings that have the given lengths, one after the other, from glyph `glyph` on.
Gives the Font DICT and the instructions of each. -/
def decodeGlyphs (sources : SubroutineSources) (options : ReadOptions) (glyph : Nat)
    (data : List UInt8) (selector : Option Selector) (compactor : Compactor) :
    List Index.Extent → Except FontFault (List (Option UInt8 × List Instruction))
  | [] => return []
  | extent :: extents => do
    let (charstring, data) ← Reader.take extent.length data
    let (fontDict, selector) ← selectFontDict selector (UInt16.ofNat glyph)
    let decoded ← Charstring.decode (← sources.sets fontDict) charstring
    let (stored, compactor) :=
      if options.compactInstructions then compactor.compact decoded else (decoded, compactor)
    let others ← decodeGlyphs sources options (glyph + 1) data selector compactor extents
    return (fontDict, stored) :: others

/-- The name of a glyph. Glyph 0 has the same name in every font; in a CID-keyed font no other glyph
has one. -/
def glyphName (strings : Array String) (isCidKeyed : Bool) (glyph : Nat) (id : Option UInt16) :
    Option String :=
  if glyph = 0 then standardStrings[0]?
  else if isCidKeyed then none
  else id.bind (stringOfSid? strings)

/-- The glyph that has been decoded. -/
def makeGlyph (strings : Array String) (isCidKeyed : Bool) (options : ReadOptions)
    (glyph : Nat) (decoded : Option UInt8 × List Instruction) (id : Option UInt16) : Glyph :=
  { number := UInt16.ofNat glyph
    fontDict := decoded.1
    name := glyphName strings isCidKeyed glyph id
    sid := id.getD 0
    instructions := decoded.2
    compacted := options.compactInstructions }

/-- The charset of a font of so many glyphs. -/
def readCharset (table : List UInt8) (top : Dict) (glyphs : Nat) : Except FontFault Charset := do
  let offset ← intOr top .charset 0
  if offset = 0 then return .isoAdobe
  else if offset = 1 then return .expert
  else if offset = 2 then return .expertSubset
  else return .custom (← readAt table (← offsetOfInt32 offset) (CustomCharset.read glyphs))

/-- The encoding of a font. A CID-keyed font has none. -/
def readEncoding (table : List UInt8) (cid : Option CidInfo) (top : Dict) :
    Except FontFault (Option Encoding) :=
  match cid with
  | some _ => return none
  | none => do
    let offset ← intOr top .encoding 0
    if offset = 0 then return some .standard
    else if offset = 1 then return some .expert
    else return some (.custom (← readAt table (← offsetOfInt32 offset) CustomEncoding.read))

/-- The charstrings of a font. -/
def readCharstrings (table : List UInt8) (top : Dict) : Except ReadFault Index := do
  let offset ← (top.int? .charStrings).getD (.error .missingValue)
  readAt table (← offsetOfInt32 offset) Index.read

/-! ### Fonts and font sets -/

/-- What a Top DICT tells in words. -/
def textsOf (top : Dict) (strings : Array String) : FontTexts :=
  let text (op : Operator) : Option String := (top.sid? op).bind (stringOfSid? strings)
  { version := text .version
    notice := text .notice
    copyright := text .copyright
    fullName := text .fullName
    familyName := text .familyName
    weight := text .weight }

/-- What a Top DICT tells of the looks of the font. -/
def readMetrics (top : Dict) : Except ReadFault FontMetrics := do
  let underlinePosition ← floatOr top .underlinePosition (-100)
  let underlineThickness ← floatOr top .underlineThickness 50
  let italicAngle ← floatOr top .italicAngle 0
  let isFixedPitch ← intOr top .isFixedPitch 0
  let boundingBox ← readBoundingBox top
  return { underlinePosition, underlineThickness, italicAngle, isFixedPitch := isFixedPitch != 0,
           boundingBox }

/-- Reads a font, given its Top DICT and what stands before it in the table. -/
def readFont (table : List UInt8) (name : String) (top : Dict) (strings : Array String)
    (globalSubroutines : Index) (options : ReadOptions) : Except FontFault Font := do
  let metrics ← readMetrics top
  let cid ← readCid table top strings
  let fontDicts ← readFontDicts table cid strings
  let priv ← readFontPrivate table cid top
  let charstrings ← readCharstrings table top
  let sources : SubroutineSources :=
    ⟨globalSubroutines, priv.subroutines, (fontDicts.map (·.subroutines)).toArray⟩
  let selector := (cid.bind (·.fdSelect)).map Selector.start
  let decoded ←
    decodeGlyphs sources options 0 charstrings.data.toList selector .new charstrings.extents
  let charset ← readCharset table top charstrings.count
  let glyphs := (decoded.zip (charset.glyphIds charstrings.count)).mapIdx fun glyph (decoded, id) =>
    makeGlyph strings cid.isSome options glyph decoded id
  let encoding ← readEncoding table cid top
  return { name, texts := textsOf top strings, metrics, topDict := top, cid,
           fontDicts := fontDicts.toArray, priv, globalSubroutines, glyphs := glyphs.toArray,
           charset, encoding }

/-- Reads a table of version 1. -/
def readVersion1 (table : List UInt8) (options : ReadOptions) : Except FontFault FontSet := do
  let (header, rest) ← Header.read table
  let (nameIndex, rest) ← Index.read rest
  if nameIndex.count = 0 then throw (.read .missingValue)
  if nameIndex.count ≠ 1 then throw .multipleFonts
  let names := nameIndex.objects.map Utf8.decode
  let (topIndex, rest) ← Index.read rest
  if topIndex.count = 0 then throw (.read .missingValue)
  if topIndex.count ≠ 1 then throw .multipleTopDicts
  let topBytes ←
    match topIndex.get? 0 with
    | some bytes => pure bytes
    | none => throw (.read .badIndex)
  let top ← Dict.ofBytes .top topBytes
  let (stringIndex, rest) ← Index.read rest
  let strings := (stringIndex.objects.map Utf8.decode).toArray
  let (globalSubroutines, _) ← Index.read rest
  let font ← readFont table (names.headD "") top strings globalSubroutines options
  return { header, names, strings, fonts := [font] }

/-- Reads a table. Tables of version 2 are known, but not supported. -/
def read (table : List UInt8) (options : ReadOptions) : Except FontFault FontSet := do
  let (major, _) ← Cell.uint8.read table
  if major = 1 then readVersion1 table options
  else if major = 2 then do
    let (header, _) ← Header2.read table
    throw (.unsupportedVersion header.major)
  else throw (.unsupportedVersion major)

end FontSet

end CompactFont
