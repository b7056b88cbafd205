import CompactFont.Bytes.Packed

/-!
# FDSelect

FDSelect gives each glyph of a CID-keyed font its Font DICT. It is written as ranges: the first
glyph of a range and the number of the Font DICT, a range ending where the next one starts and the
last one before the sentinel.

Glyphs are looked up in ascending order by a `Selector`, which stands at a range and moves on by at
most one range for a glyph, also when that does not lead to it; it does not go back.
-/

namespace CompactFont

/-- The first glyph of a range, and the Font DICT of the glyphs in it. -/
structure FdRange where
  /-- The first glyph. -/
  first : UInt16
  /-- The number of the Font DICT. -/
  fontDict : UInt8
  deriving DecidableEq

/-- A range as it is written. -/
def FdRange.cell : Cell FdRange :=
  (Cell.uint16.pair Cell.uint8).rename (fun p => ⟨p.1, p.2⟩) (fun r => (r.first, r.fontDict))
    fun _ => rfl

/-- The Font DICTs of the glyphs. -/
structure FdSelect where
  /-- The ranges. -/
  ranges : Array FdRange
  /-- The first glyph after the last range. -/
  sentinel : UInt16

namespace FdSelect

/-- The one format that is read. -/
def format : UInt8 := 3

/-- Reads FDSelect. -/
def read : TableReader FdSelect := do
  let found ← (Cell.uint8.read : Reader UInt8)
  if found = format then
    let count ← (Cell.uint16.read : Reader UInt16)
    let ranges ← (Packed.readList FdRange.cell count.toNat : Reader (List FdRange))
    let sentinel ← (Cell.uint16.read : Reader UInt16)
    return ⟨ranges.toArray, sentinel⟩
  else throw (.unsupportedFdSelectFormat found)

/-- FDSelect as it is written. -/
def encode (select : FdSelect) : List UInt8 :=
  format :: (Cell.uint16.encode (UInt16.ofNat select.ranges.size) ++
    select.ranges.toList.flatMap FdRange.cell.encode ++ Cell.uint16.encode select.sentinel)

/-- The first glyph after range number `i`. -/
def upperBound (select : FdSelect) (i : Nat) : UInt16 :=
  match select.ranges[i + 1]? with
  | some next => next.first
  | none => select.sentinel

/-- The Font DICT of a glyph, if the glyph is in range number `i`. -/
def lookup? (select : FdSelect) (i : Nat) (glyph : UInt16) : Option UInt8 := do
  let range ← select.ranges[i]?
  guard (range.first ≤ glyph ∧ glyph < select.upperBound i)
  return range.fontDict

end FdSelect

/-- A place in the ranges of FDSelect. -/
structure Selector where
  /-- The ranges. -/
  select : FdSelect
  /-- The number of the range. -/
  current : Nat

namespace Selector

/-- The place at the first range. -/
def start (select : FdSelect) : Selector := ⟨select, 0⟩

/-- The Font DICT of a glyph, and the place where it was found or looked for last. -/
def selectFor (s : Selector) (glyph : UInt16) : Except FontFault UInt8 × Selector :=
  match s.select.lookup? s.current glyph with
  | some fontDict => (.ok fontDict, s)
  | none =>
    let s := { s with current := s.current + 1 }
    match s.select.lookup? s.current glyph with
    | some fontDict => (.ok fontDict, s)
    | none => (.error (.glyphWithoutFontDict glyph), s)

end Selector

end CompactFont
