import CompactFont.Dict.Basic
import CompactFont.Index
import CompactFont.Text.Utf8

/-!
# Writing a font

A font of the plainest kind is one that is not CID-keyed and has the charset ISOAdobe and the standard
encoding. It is made of its name, its strings, its charstrings, subroutines of both kinds, and the
entries of its Private DICT. `FontSource.encode` writes the table.

The offsets in the Top DICT point past the Top DICT. They are written in the long form, all of one
length, so that where they point to does not depend on them.
-/

namespace CompactFont

/-- What a font of the plainest kind is made of. -/
structure FontSource where
  /-- The name. -/
  name : String
  /-- The strings. -/
  strings : List String
  /-- The subroutines of all fonts. -/
  globalSubroutines : List (List UInt8)
  /-- The charstrings, glyph by glyph. -/
  charstrings : List (List UInt8)
  /-- The entries of the Private DICT as they are written, without the place of its subroutines. -/
  privateEntries : List UInt8
  /-- The subroutines of the Private DICT. -/
  localSubroutines : List (List UInt8)

namespace FontSource

/-- The header, which has no bytes to pass over. -/
def header : List UInt8 := [1, 0, 4, 4]

/-- A size or an offset in a DICT. -/
def number (n : Nat) : List UInt8 := IntForm.long.encode n

/-- The number of bytes of an entry with one number and an operator of one byte. -/
def entryLength : Nat := 6

/-- The Private DICT. Its subroutines come directly after it. -/
def privateDict (s : FontSource) : List UInt8 :=
  if s.localSubroutines.isEmpty then s.privateEntries
  else s.privateEntries ++ number (s.privateEntries.length + entryLength) ++ Operator.subrs.encode

/-- The Top DICT, given where the charstrings and the Private DICT are. -/
def topDict (s : FontSource) (charstrings priv : Nat) : List UInt8 :=
  number charstrings ++ Operator.charStrings.encode ++
    number s.privateDict.length ++ number priv ++ Operator.privateDict.encode

/-- What comes before the charstrings. -/
def front (s : FontSource) (charstrings priv : Nat) : List UInt8 :=
  header ++ Index.encodeNarrow [Utf8.encode s.name] ++
    Index.encodeNarrow [s.topDict charstrings priv] ++
    Index.encodeNarrow (s.strings.map Utf8.encode) ++ Index.encodeNarrow s.globalSubroutines

/-- Where the charstrings are. -/
def charstringsOffset (s : FontSource) : Nat := (s.front 0 0).length

/-- Where the Private DICT is. -/
def privateOffset (s : FontSource) : Nat :=
  s.charstringsOffset + (Index.encodeNarrow s.charstrings).length

/-- The subroutines of the Private DICT, if there are any. -/
def localIndex (s : FontSource) : List UInt8 :=
  if s.localSubroutines.isEmpty then [] else Index.encodeNarrow s.localSubroutines

/-- The table. -/
def encode (s : FontSource) : List UInt8 :=
  s.front s.charstringsOffset s.privateOffset ++ Index.encodeNarrow s.charstrings ++
    s.privateDict ++ s.localIndex

end FontSource

end CompactFont
