import CompactFont.Bytes.Cursor

/-!
# Packed arrays

A packed array is a number of equal cells, one after the other, whose values are read when they are
asked for. It is read as one block of bytes. The values can be listed in order (`toList`), taken one
by one in an iteration (`next?`, `iterate`) or asked for by number (`get?`, `item`); each of these looks
at the bytes in its own way.
-/

namespace CompactFont

/-- Equal cells, one after the other. -/
structure Packed (α : Type) where
  /-- What each cell is. -/
  cell : Cell α
  /-- How many there are. -/
  count : Nat
  /-- The bytes of all of them. -/
  bytes : List UInt8

namespace Packed

variable {α : Type}

/-- The sizes of arrays are numbers of 64 bits. -/
def sizeLimit : Nat := UInt64.size

/-- Reads the bytes of `count` cells. -/
def read (cell : Cell α) (count : Nat) : Reader (Packed α) := do
  Reader.require (count * cell.width < sizeLimit) .badValue
  let bytes ← Reader.take (count * cell.width)
  return ⟨cell, count, bytes⟩

/-- The values of `count` cells, in order. Where the bytes end before, so do the values. -/
def values (cell : Cell α) : (count : Nat) → List UInt8 → List α
  | 0, _ => []
  | count + 1, bytes =>
    match cell.read bytes with
    | .ok (value, rest) => value :: values cell count rest
    | .error _ => []

/-- The values, in order. -/
def toList (items : Packed α) : List α := values items.cell items.count items.bytes

/-- The value that comes next in an iteration that stands before cell number `i`, if there is such a cell
and the bytes from there on are enough for it. -/
def next? (items : Packed α) (i : Nat) : Option α :=
  let rest := (Scope.ofBytes items.bytes).offset (i * items.cell.width)
  if i < items.count ∧ items.cell.width ≤ rest.bytes.length then
    some (items.cell.decode (rest.bytes.take items.cell.width))
  else none

/-- The values that an iteration goes on with when so many cells are left. -/
def iterate (items : Packed α) : (left : Nat) → List α
  | 0 => []
  | left + 1 =>
    match items.next? (items.count - (left + 1)) with
    | some value => value :: items.iterate left
    | none => []

/-- The bytes of cell number `i`, as a scope. -/
def part (items : Packed α) (i : Nat) : Except ReadFault Scope :=
  (Scope.ofBytes items.bytes).window (i * items.cell.width) items.cell.width

/-- The value of cell number `i`, if there is one. It is decoded from its bytes as they are. -/
def get? (items : Packed α) (i : Nat) : Option α :=
  if i < items.count then
    match items.part i with
    | .ok part => some (items.cell.decode part.bytes)
    | .error _ => none
  else none

/-- The value of cell number `i`, read by a cursor of its own; it is a fault when there is none. -/
def item (items : Packed α) (i : Nat) : Except ReadFault α :=
  if i < items.count then do
    let part ← items.part i
    let (value, _) ← (Cursor.start part).read items.cell.read
    return value
  else throw .badIndex

/-- Reads `count` cells and lists their values. -/
def readList (cell : Cell α) (count : Nat) : Reader (List α) := toList <$> read cell count

end Packed

end CompactFont
