import CompactFont.Bytes.Cell

/-!
# Headers

A table starts with its version. In version 1 its header has at least four bytes, and says how many
there are; the others are passed over. In version 2 it has at least five. No more than the header is
read of a table of version 2.
-/

namespace CompactFont

/-- The header of a table of version 1. -/
structure Header where
  /-- The major version. -/
  major : UInt8
  /-- The minor version. -/
  minor : UInt8
  /-- The number of bytes of the header. -/
  size : UInt8
  /-- The width of offsets from the start of the table. -/
  offsetSize : UInt8
  deriving DecidableEq

namespace Header

/-- The least number of bytes of a header. -/
def leastSize : UInt8 := 4

/-- Reads a header. -/
def read : Reader Header := do
  let major ← Cell.uint8.read
  Reader.require (major == 1) .badVersion
  let minor ← Cell.uint8.read
  let size ← Cell.uint8.read
  let offsetSize ← Cell.uint8.read
  Reader.require (leastSize ≤ size) .badValue
  Reader.require (1 ≤ offsetSize ∧ offsetSize ≤ 4) .badValue
  let _ ← Reader.take (size - leastSize).toNat
  return ⟨major, minor, size, offsetSize⟩

end Header

/-- The header of a table of version 2. -/
structure Header2 where
  /-- The major version. -/
  major : UInt8
  /-- The minor version. -/
  minor : UInt8
  /-- The number of bytes of the header. -/
  size : UInt8
  /-- The number of bytes of the Top DICT. -/
  topDictSize : UInt16
  deriving DecidableEq

namespace Header2

/-- The least number of bytes of a header. -/
def leastSize : UInt8 := 5

/-- Reads a header. -/
def read : Reader Header2 := do
  let major ← Cell.uint8.read
  Reader.require (major == 2) .badValue
  let minor ← Cell.uint8.read
  let size ← Cell.uint8.read
  let topDictSize ← Cell.uint16.read
  Reader.require (leastSize ≤ size) .badValue
  let _ ← Reader.take (size - leastSize).toNat
  return ⟨major, minor, size, topDictSize⟩

end Header2

end CompactFont
