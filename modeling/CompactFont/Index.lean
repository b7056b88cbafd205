import CompactFont.Bytes.Packed

/-!
# INDEX

An INDEX holds byte strings, its objects, by number. It is written as the number of objects (two
bytes) and, if there are any, the width of the offsets (one byte, from one to four), one offset more
than there are objects, and the objects one after the other. Offsets count from one: object `i`
starts at `offset i - 1` of the object data and ends before `offset (i + 1) - 1`.

An INDEX is accepted only when every object lies within the object data, so an object of an accepted
INDEX can always be looked up. The place of an object (`Extent`) and its bytes (`get?`) are found
from the offsets; `encode` writes an INDEX.
-/

namespace CompactFont

/-- Byte strings by number. -/
structure Index where
  /-- The offsets, one more than there are objects; none when there are no objects. -/
  offsets : Array Nat
  /-- The object data. -/
  data : Array UInt8

namespace Index

/-- The place of an object within the object data. -/
structure Extent where
  /-- Where the object starts. -/
  start : Nat
  /-- The number of its bytes. -/
  length : Nat
  deriving DecidableEq

/-- The INDEX that holds nothing. -/
def empty : Index := ⟨#[], #[]⟩

/-- The number of objects. -/
def count (x : Index) : Nat := x.offsets.size - 1

/-- The number of bytes of object data. -/
def dataLength (x : Index) : Nat := x.data.size

/-- Offsets `first` and `last` enclose bytes of object data that is `length` bytes long. -/
def Encloses (length first last : Nat) : Prop := 1 ≤ first ∧ first ≤ last ∧ last - 1 ≤ length

instance (length first last : Nat) : Decidable (Encloses length first last) :=
  inferInstanceAs (Decidable (_ ∧ _ ∧ _))

/-- The offsets before and after each object. -/
def bounds (x : Index) : List (Nat × Nat) := x.offsets.toList.zip x.offsets.toList.tail

/-- The place of each object. -/
def extents (x : Index) : List Extent := x.bounds.map fun (first, last) => ⟨first - 1, last - first⟩

/-- The bytes of object number `i`, if there is one. -/
def get? (x : Index) (i : Nat) : Option (List UInt8) := do
  let first ← x.offsets[i]?
  let last ← x.offsets[i + 1]?
  guard (1 ≤ first ∧ first ≤ last ∧ last - 1 ≤ x.data.size)
  return (x.data.extract (first - 1) (last - 1)).toList

/-- The objects that can be looked up, in order. -/
def objects (x : Index) : List (List UInt8) := (List.range x.count).filterMap x.get?

/-- Reads an INDEX. -/
def read : Reader Index := do
  let count ← Cell.uint16.read
  if count = 0 then return empty
  let size ← Cell.uint8.read
  Reader.require (1 ≤ size ∧ size ≤ 4) .badValue
  let table ← Reader.take ((count.toNat + 1) * size.toNat)
  let offsets := offsetsOf size.toNat (count.toNat + 1) table
  let last := offsets.getLastD 0
  Reader.require (1 ≤ last) .badValue
  let data ← Reader.take (last - 1)
  let x : Index := ⟨offsets.toArray, data.toArray⟩
  Reader.require (x.bounds.all fun (first, last) => Encloses x.dataLength first last) .badOffset
  return x
where
  /-- The offsets in a table of `n`, each of `width` bytes. -/
  offsetsOf (width : Nat) : (n : Nat) → List UInt8 → List Nat
    | 0, _ => []
    | n + 1, table => BigEndian.ofBytes (table.take width) :: offsetsOf width n (table.drop width)

/-- The offsets of objects of the given lengths, the first of them at `start`. -/
def offsetsFrom (start : Nat) : List (List UInt8) → List Nat
  | [] => [start]
  | object :: objects => start :: offsetsFrom (start + object.length) objects

/-- An INDEX of the given objects as it is written with offsets of `width` bytes. -/
def encode (width : Nat) (objects : List (List UInt8)) : List UInt8 :=
  BigEndian.toBytes 2 objects.length ++
    if objects.isEmpty then []
    else
      let table := (offsetsFrom 1 objects).flatMap (BigEndian.toBytes width)
      UInt8.ofNat width :: (table ++ objects.flatten)

/-- The least width that has room for the offsets of the given objects. -/
def leastWidth (objects : List (List UInt8)) : Nat :=
  let last := objects.flatten.length + 1
  if last < 0x100 then 1 else if last < 0x10000 then 2 else if last < 0x1000000 then 3 else 4

/-- An INDEX of the given objects as it is written with the narrowest offsets. -/
def encodeNarrow (objects : List (List UInt8)) : List UInt8 := encode (leastWidth objects) objects

end Index

end CompactFont
