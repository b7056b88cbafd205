/-!
# Faults

Reading a font ends with a value or with the first fault met. There are two layers. A `ReadFault`
says why bytes could not be read as the value that was asked for; a `FontFault` says why a font, a
charstring or an outline could not be made, and takes in the faults of the first layer. The wording
of every fault is fixed here, once, by `ReadFault.message` and `FontFault.message`.
-/

namespace CompactFont

/-- Why bytes could not be read as the value that was asked for. -/
inductive ReadFault where
  /-- The value needs more bytes than are left. -/
  | endOfData
  /-- The bytes are there, and stand for no value that is allowed. -/
  | badValue
  /-- The version number is not the one that is understood. -/
  | badVersion
  /-- An offset points outside of the data. -/
  | badOffset
  /-- There is no item of that number. -/
  | badIndex
  /-- The value is too long to be taken in. -/
  | limitExceeded
  /-- A value that must be present is absent. -/
  | missingValue
  /-- The value asks for something that is not supported. -/
  | notImplemented
  deriving DecidableEq

/-- The wording of a read fault. -/
def ReadFault.message : ReadFault → String
  | .endOfData => "end of data reached unexpectedly"
  | .badValue => "invalid value"
  | .badVersion => "unexpected data version"
  | .badOffset => "invalid data offset"
  | .badIndex => "invalid data index"
  | .limitExceeded => "limit exceeded"
  | .missingValue => "an expected data value was missing"
  | .notImplemented => "feature not implemented"

/-- Why a font, a charstring or an outline could not be made. -/
inductive FontFault where
  /-- A part of the font could not be read. -/
  | read (fault : ReadFault)
  /-- The Name INDEX holds more than one font. -/
  | multipleFonts
  /-- The Top DICT INDEX holds more than one DICT. -/
  | multipleTopDicts
  /-- The table has a major version that is not read. -/
  | unsupportedVersion (major : UInt8)
  /-- The charset has an unknown format. -/
  | unsupportedCharsetFormat (format : UInt8)
  /-- The encoding has an unknown format. -/
  | unsupportedEncodingFormat (format : UInt8)
  /-- FDSelect has an unknown format. -/
  | unsupportedFdSelectFormat (format : UInt8)
  /-- An escaped charstring operator in the known range is not defined. -/
  | undefinedOperator
  /-- A hint mask needs more bytes than the charstring holds. -/
  | maskTruncated
  /-- FDSelect maps the glyph to no Font DICT. -/
  | glyphWithoutFontDict (glyph : UInt16)
  /-- The operand of a subroutine call is not an integer. -/
  | callOperandNotInteger
  /-- There is no subroutine of that number. -/
  | noSuchSubroutine
  /-- A local subroutine is called where there are none. -/
  | noPrivateSubroutines
  /-- Subroutine calls are nested too deeply. -/
  | nestedTooDeeply
  /-- A subroutine call was met among decoded instructions, where calls are already inlined. -/
  | callNotInlined
  /-- An operator has a number of operands that it cannot have. -/
  | wrongOperandCount
  /-- More operands are pushed than the stack has room for. -/
  | tooManyOperands
  /-- The operand that stands for the glyph width is not an integer. -/
  | widthNotInteger
  deriving DecidableEq

/-- The wording of a font fault. -/
def FontFault.message : FontFault → String
  | .read fault => "parse error: " ++ fault.message
  | .multipleFonts => "font sets with more than one font"
  | .multipleTopDicts => "more than one Top DICT"
  | .unsupportedVersion major => "unsupported CFF version " ++ toString major.toNat
  | .unsupportedCharsetFormat format => "unsupported charset format " ++ toString format.toNat
  | .unsupportedEncodingFormat format => "unsupported encoding format " ++ toString format.toNat
  | .unsupportedFdSelectFormat format => "unsupported FDSelect format " ++ toString format.toNat
  | .undefinedOperator => "an invalid operator occurred"
  | .maskTruncated => "hint mask extends past the end of data"
  | .glyphWithoutFontDict glyph => "glyph " ++ toString glyph.toNat ++ " is not covered by FDSelect"
  | .callOperandNotInteger => "subroutine number is not an integer"
  | .noSuchSubroutine => "an invalid subroutine index"
  | .noPrivateSubroutines => "no local subroutines"
  | .nestedTooDeeply => "subroutines nesting limit reached"
  | .callNotInlined => "subroutine call found in decoded instructions"
  | .wrongOperandCount => "an invalid amount of items are in an arguments stack"
  | .tooManyOperands => "arguments stack limit reached"
  | .widthNotInteger => "glyph width is not an integer"

/-- A computation that can fail while reading can stand where one that makes a font is expected. -/
instance : MonadLift (Except ReadFault) (Except FontFault) where
  monadLift outcome := outcome.mapError FontFault.read

end CompactFont
