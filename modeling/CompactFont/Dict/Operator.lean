import CompactFont.Bytes.Cell

/-!
# Operators of a DICT

An operator is named by its key, which is one byte, or two bytes of which the first is 12. It has a
name and takes operands of a certain kind; the kind decides how many operands are accepted, and
nothing else of them. `Operator.ofKey?` finds an operator by its key, and no two operators share one
(`Operator.ofKey?_key`).
-/

namespace CompactFont

/-- What the operands of an operator are. -/
inductive OperandKind where
  /-- The number of a string. -/
  | sid
  /-- Zero or one. -/
  | boolean
  /-- One number. -/
  | number
  /-- Any number of numbers. -/
  | array
  /-- Any number of numbers, each after the first relative to the one before. -/
  | delta
  /-- Two numbers. -/
  | twoNumbers
  /-- The numbers of two strings, and a number. -/
  | twoSidsAndNumber
  deriving DecidableEq

/-- Operands of this kind can be `count` in number. -/
def OperandKind.accepts (kind : OperandKind) (count : Nat) : Bool :=
  match kind with
  | .sid | .boolean | .number => count == 1
  | .twoNumbers => count == 2
  | .twoSidsAndNumber => count == 3
  | .array | .delta => true

/-- The operators of Top, Font and Private DICTs. -/
inductive Operator where
  /-- The version of the font. -/
  | version
  /-- The trademark notice. -/
  | notice
  /-- The full name of the font. -/
  | fullName
  /-- The family name of the font. -/
  | familyName
  /-- The weight of the font. -/
  | weight
  /-- The bounding box of all glyphs. -/
  | fontBBox
  /-- The alignment zones. -/
  | blueValues
  /-- The alignment zones below the baseline. -/
  | otherBlues
  /-- The alignment zones of the family. -/
  | familyBlues
  /-- The alignment zones of the family below the baseline. -/
  | familyOtherBlues
  /-- The dominant width of horizontal stems. -/
  | stdHW
  /-- The dominant width of vertical stems. -/
  | stdVW
  /-- The unique number of the font. -/
  | uniqueId
  /-- The extended unique number of the font. -/
  | xuid
  /-- Where the charset is. -/
  | charset
  /-- Where the encoding is. -/
  | encoding
  /-- Where the charstrings are. -/
  | charStrings
  /-- The size and the place of the Private DICT. -/
  | privateDict
  /-- Where the local subroutines are. -/
  | subrs
  /-- The width of glyphs that state none. -/
  | defaultWidthX
  /-- What stated widths are relative to. -/
  | nominalWidthX
  /-- The copyright notice. -/
  | copyright
  /-- Whether all glyphs are of one width. -/
  | isFixedPitch
  /-- The slant of the font. -/
  | italicAngle
  /-- Where the underline is. -/
  | underlinePosition
  /-- How thick the underline is. -/
  | underlineThickness
  /-- Whether glyphs are filled or stroked. -/
  | paintType
  /-- The type of the charstrings. -/
  | charstringType
  /-- The map from glyph space to user space. -/
  | fontMatrix
  /-- The width of stroked outlines. -/
  | strokeWidth
  /-- The size from which overshoot is drawn. -/
  | blueScale
  /-- The overshoot that is drawn at any size. -/
  | blueShift
  /-- The tolerance of alignment zones. -/
  | blueFuzz
  /-- The common widths of horizontal stems. -/
  | stemSnapH
  /-- The common widths of vertical stems. -/
  | stemSnapV
  /-- Whether stems are made bold. -/
  | forceBold
  /-- The language group. -/
  | languageGroup
  /-- The limit of counter control. -/
  | expansionFactor
  /-- The seed of random numbers. -/
  | initialRandomSeed
  /-- The font that a synthetic font is made from. -/
  | syntheticBase
  /-- Embedded PostScript code. -/
  | postScript
  /-- The name of the multiple master font. -/
  | baseFontName
  /-- The design vector of the multiple master font. -/
  | baseFontBlend
  /-- The registry, ordering and supplement of a CID-keyed font. -/
  | ros
  /-- The version of a CID-keyed font. -/
  | cidFontVersion
  /-- The revision of a CID-keyed font. -/
  | cidFontRevision
  /-- The type of a CID-keyed font. -/
  | cidFontType
  /-- The number of CIDs. -/
  | cidCount
  /-- The first of the unique numbers of the Font DICTs. -/
  | uidBase
  /-- Where the Font DICTs are. -/
  | fdArray
  /-- Where the choice of a Font DICT for each glyph is. -/
  | fdSelect
  /-- The name of a Font DICT. -/
  | fontName
  deriving DecidableEq

namespace Operator

/-- The key of the two-byte operator whose second byte is `b`. -/
def escaped (b : UInt8) : UInt16 := 12 * 256 + b.toUInt16

/-- What is known of an operator. -/
structure Info where
  /-- The key: the byte, or the two bytes as one number. -/
  key : UInt16
  /-- The name. -/
  name : String
  /-- What the operands are. -/
  kind : OperandKind

/-- What is known of each operator. -/
def info : Operator → Info
  | .version => ⟨0, "version", .sid⟩
  | .notice => ⟨1, "Notice", .sid⟩
  | .fullName => ⟨2, "FullName", .sid⟩
  | .familyName => ⟨3, "FamilyName", .sid⟩
  | .weight => ⟨4, "Weight", .sid⟩
  | .fontBBox => ⟨5, "FontBBox", .array⟩
  | .blueValues => ⟨6, "BlueValues", .delta⟩
  | .otherBlues => ⟨7, "OtherBlues", .delta⟩
  | .familyBlues => ⟨8, "FamilyBlues", .delta⟩
  | .familyOtherBlues => ⟨9, "FamilyOtherBlues", .delta⟩
  | .stdHW => ⟨10, "StdHW", .number⟩
  | .stdVW => ⟨11, "StdVW", .number⟩
  | .uniqueId => ⟨13, "UniqueID", .number⟩
  | .xuid => ⟨14, "XUID", .array⟩
  | .charset => ⟨15, "charset", .number⟩
  | .encoding => ⟨16, "Encoding", .number⟩
  | .charStrings => ⟨17, "CharStrings", .number⟩
  | .privateDict => ⟨18, "Private", .twoNumbers⟩
  | .subrs => ⟨19, "Subrs", .number⟩
  | .defaultWidthX => ⟨20, "defaultWidthX", .number⟩
  | .nominalWidthX => ⟨21, "nominalWidthX", .number⟩
  | .copyright => ⟨escaped 0, "Copyright", .sid⟩
  | .isFixedPitch => ⟨escaped 1, "isFixedPitch", .boolean⟩
  | .italicAngle => ⟨escaped 2, "ItalicAngle", .number⟩
  | .underlinePosition => ⟨escaped 3, "UnderlinePosition", .number⟩
  | .underlineThickness => ⟨escaped 4, "UnderlineThickness", .number⟩
  | .paintType => ⟨escaped 5, "PaintType", .number⟩
  | .charstringType => ⟨escaped 6, "CharstringType", .number⟩
  | .fontMatrix => ⟨escaped 7, "FontMatrix", .array⟩
  | .strokeWidth => ⟨escaped 8, "StrokeWidth", .number⟩
  | .blueScale => ⟨escaped 9, "BlueScale", .number⟩
  | .blueShift => ⟨escaped 10, "BlueShift", .number⟩
  | .blueFuzz => ⟨escaped 11, "BlueFuzz", .number⟩
  | .stemSnapH => ⟨escaped 12, "StemSnapH", .delta⟩
  | .stemSnapV => ⟨escaped 13, "StemSnapV", .delta⟩
  | .forceBold => ⟨escaped 14, "ForceBold", .boolean⟩
  | .languageGroup => ⟨escaped 17, "LanguageGroup", .number⟩
  | .expansionFactor => ⟨escaped 18, "ExpansionFactor", .number⟩
  | .initialRandomSeed => ⟨escaped 19, "initialRandomSeed", .number⟩
  | .syntheticBase => ⟨escaped 20, "SyntheticBase", .number⟩
  | .postScript => ⟨escaped 21, "PostScript", .sid⟩
  | .baseFontName => ⟨escaped 22, "BaseFontName", .sid⟩
  | .baseFontBlend => ⟨escaped 23, "BaseFontBlend", .delta⟩
  | .ros => ⟨escaped 30, "ROS", .twoSidsAndNumber⟩
  | .cidFontVersion => ⟨escaped 31, "CIDFontVersion", .number⟩
  | .cidFontRevision => ⟨escaped 32, "CIDFontRevision", .number⟩
  | .cidFontType => ⟨escaped 33, "CIDFontType", .number⟩
  | .cidCount => ⟨escaped 34, "CIDCount", .number⟩
  | .uidBase => ⟨escaped 35, "UIDBase", .number⟩
  | .fdArray => ⟨escaped 36, "FDArray", .number⟩
  | .fdSelect => ⟨escaped 37, "FDSelect", .number⟩
  | .fontName => ⟨escaped 38, "FontName", .sid⟩

/-- The key of an operator. -/
def key (op : Operator) : UInt16 := op.info.key

/-- The name of an operator. -/
def name (op : Operator) : String := op.info.name

/-- The kind of the operands of an operator. -/
def kind (op : Operator) : OperandKind := op.info.kind

/-- Every operator. -/
def all : List Operator :=
  [.version, .notice, .fullName, .familyName, .weight, .fontBBox, .blueValues, .otherBlues,
   .familyBlues, .familyOtherBlues, .stdHW, .stdVW, .uniqueId, .xuid, .charset, .encoding,
   .charStrings, .privateDict, .subrs, .defaultWidthX, .nominalWidthX, .copyright,
   .isFixedPitch, .italicAngle, .underlinePosition, .underlineThickness, .paintType,
   .charstringType, .fontMatrix, .strokeWidth, .blueScale, .blueShift, .blueFuzz, .stemSnapH,
   .stemSnapV, .forceBold, .languageGroup, .expansionFactor, .initialRandomSeed, .syntheticBase,
   .postScript, .baseFontName, .baseFontBlend, .ros, .cidFontVersion, .cidFontRevision,
   .cidFontType, .cidCount, .uidBase, .fdArray, .fdSelect, .fontName]

/-- The operator that has the given key. -/
def ofKey? (key : UInt16) : Option Operator := all.find? fun op => op.key == key

/-- An operator is found by its key. -/
theorem ofKey?_key (op : Operator) : ofKey? op.key = some op := by
  cases op <;> rfl

end Operator

end CompactFont
