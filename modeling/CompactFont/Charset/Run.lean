import CompactFont.Bytes.Cell

/-!
# Runs

A run stands for consecutive numbers: the first of them and how many more there are. Charsets and
encodings are written with runs, whose two numbers have the widths that the table's format gives.
-/

namespace CompactFont

/-- A first number, and how many follow it. -/
structure Run (First Left : Type) where
  /-- The first number. -/
  first : First
  /-- How many numbers there are after the first. -/
  left : Left
  deriving DecidableEq

namespace Run

variable {First Left : Type}

/-- A run as it is written: the first number, then the count of the others. -/
def cell (first : Cell First) (left : Cell Left) : Cell (Run First Left) :=
  (first.pair left).rename (fun p => ⟨p.1, p.2⟩) (fun r => (r.first, r.left)) fun _ => rfl

/-- A run of bytes. -/
def bytes : Cell (Run UInt8 UInt8) := cell Cell.uint8 Cell.uint8

/-- A run of SIDs, at most 256 of them. -/
def short : Cell (Run UInt16 UInt8) := cell Cell.uint16 Cell.uint8

/-- A run of SIDs, of any length. -/
def long : Cell (Run UInt16 UInt16) := cell Cell.uint16 Cell.uint16

/-- A short run is a run. -/
def widen (r : Run UInt16 UInt8) : Run UInt16 UInt16 := ⟨r.first, r.left.toUInt16⟩

/-- How many numbers a run stands for. -/
def length (r : Run UInt16 UInt16) : Nat := r.left.toNat + 1

/-- The largest SID. -/
def lastSid : Nat := 65535

/-- The numbers that a run stands for. There is none past the largest SID. -/
def values (r : Run UInt16 UInt16) : List UInt16 :=
  (List.range' r.first.toNat (min (r.first.toNat + r.left.toNat) lastSid + 1 - r.first.toNat)).map
    UInt16.ofNat

/-- Number `i` of those that a run stands for, if it is a SID. -/
def value? (r : Run UInt16 UInt16) (i : Nat) : Option UInt16 :=
  if r.first.toNat + i ≤ lastSid then some (UInt16.ofNat (r.first.toNat + i)) else none

end Run

end CompactFont
