import CompactFont.Bytes.Packed
import CompactFont.Charset.Predefined
import CompactFont.Charset.Run

/-!
# Charsets

A charset gives each glyph the SID of its name, or its CID in a CID-keyed font. It is one of three
predefined charsets or is written in the font, as a list of SIDs or as runs of them; glyph 0, which
has the SID 0 in every font, is left out there.

A charset can be asked for one glyph (`id?`), or for all glyphs at once (`CustomCharset.ids`,
`glyphIds`). How many runs there are is not written: they are counted first, as many as it takes to
cover all glyphs, and then read.
-/

namespace CompactFont

/-- A charset that is written in the font. -/
inductive CustomCharset where
  /-- Format 0: the SIDs of the glyphs after glyph 0. -/
  | list (sids : List UInt16)
  /-- Format 1: runs of at most 256 SIDs. -/
  | short (runs : List (Run UInt16 UInt8))
  /-- Format 2: runs of any length. -/
  | long (runs : List (Run UInt16 UInt16))

namespace CustomCharset

/-- The SID number `i` of those that runs stand for, where it is one. -/
def sidInRuns? (i : Nat) : List (Run UInt16 UInt16) → Option UInt16
  | [] => none
  | run :: runs => if i < run.length then run.value? i else sidInRuns? (i - run.length) runs

/-- The SID of one glyph. -/
def id? (charset : CustomCharset) (glyph : UInt16) : Option UInt16 :=
  if glyph = 0 then some 0
  else
    let i := glyph.toNat - 1
    match charset with
    | .list sids => sids[i]?
    | .short runs => sidInRuns? i (runs.map Run.widen)
    | .long runs => sidInRuns? i runs

/-- The SIDs of all glyphs, in order. -/
def ids : CustomCharset → List UInt16
  | .list sids => 0 :: sids
  | .short runs => 0 :: (runs.map Run.widen).flatMap Run.values
  | .long runs => 0 :: runs.flatMap Run.values

/-- Looks ahead for the runs that cover a number of glyphs, and counts them. -/
def countRuns {Left : Type} (cell : Cell (Run UInt16 Left)) (left : Left → Nat) (glyphs : Nat)
    (bytes : List UInt8) : Except ReadFault Nat :=
  if glyphs = 0 then .ok 0
  else do
    let (run, rest) ← cell.read bytes
    let others ← countRuns cell left (glyphs - (left run.left + 1)) rest
    return others + 1
termination_by glyphs
decreasing_by omega

/-- Reads the runs that cover a number of glyphs. -/
def readRuns {Left : Type} (cell : Cell (Run UInt16 Left)) (left : Left → Nat) (glyphs : Nat) :
    Reader (List (Run UInt16 Left)) := fun bytes => do
  let count ← countRuns cell left glyphs bytes
  Packed.readList cell count bytes

/-- Reads a charset for a number of glyphs, which includes glyph 0. -/
def read (glyphs : Nat) : TableReader CustomCharset := do
  if glyphs = 0 then throw (.read .badValue)
  let format ← (Cell.uint8.read : Reader UInt8)
  if format = 0 then
    return .list (← (Packed.readList Cell.uint16 (glyphs - 1) : Reader _))
  else if format = 1 then
    return .short (← (readRuns Run.short UInt8.toNat (glyphs - 1) : Reader _))
  else if format = 2 then
    return .long (← (readRuns Run.long UInt16.toNat (glyphs - 1) : Reader _))
  else throw (.unsupportedCharsetFormat format)

/-- A charset as it is written. -/
def encode : CustomCharset → List UInt8
  | .list sids => 0 :: sids.flatMap Cell.uint16.encode
  | .short runs => 1 :: runs.flatMap Run.short.encode
  | .long runs => 2 :: runs.flatMap Run.long.encode

end CustomCharset

/-- A charset. -/
inductive Charset where
  /-- The charset in which glyph `i` has the SID `i`. -/
  | isoAdobe
  /-- The charset of expert glyphs. -/
  | expert
  /-- The charset of a part of the expert glyphs. -/
  | expertSubset
  /-- A charset that is written in the font. -/
  | custom (charset : CustomCharset)

namespace Charset

/-- The SID of one glyph. -/
def id? (charset : Charset) (glyph : UInt16) : Option UInt16 :=
  match charset with
  | .isoAdobe => if glyph ≤ isoAdobeLast then some glyph else none
  | .expert => expertSids[glyph.toNat]?
  | .expertSubset => expertSubsetSids[glyph.toNat]?
  | .custom charset => charset.id? glyph

/-- The first `n` of some values, with nothing where there are no more of them. -/
def padded {α : Type} : (n : Nat) → List α → List (Option α)
  | 0, _ => []
  | n + 1, [] => none :: padded n []
  | n + 1, a :: as => some a :: padded n as

/-- The SIDs of the first `n` glyphs, in order. -/
def glyphIds (charset : Charset) (n : Nat) : List (Option UInt16) :=
  match charset with
  | .custom charset => padded n charset.ids
  | predefined => (List.range n).map fun glyph => predefined.id? (UInt16.ofNat glyph)

end Charset

end CompactFont
