import CompactFont.Bytes.Reader

/-!
# Cells

A cell is a value that always takes the same number of bytes. It comes with the way it is written,
and with the two laws that make it a code: what is written is as wide as the cell says, and it
reads back as what was written (`Cell.read_encode`). Cells side by side are again a cell
(`Cell.pair`), and so is a cell whose values are renamed one to one (`Cell.rename`).
-/

namespace CompactFont

/-- A value of a fixed number of bytes. -/
structure Cell (α : Type) where
  /-- The number of bytes. -/
  width : Nat
  /-- The value that `width` bytes stand for. -/
  decode : List UInt8 → α
  /-- The bytes that stand for a value. -/
  encode : α → List UInt8
  /-- Every value takes `width` bytes. -/
  length_encode : ∀ a, (encode a).length = width
  /-- The bytes of a value stand for that value. -/
  decode_encode : ∀ a, decode (encode a) = a

namespace Cell

variable {α β : Type}

/-- Reads the cell off the front of the bytes. -/
def read (f : Cell α) : Reader α := f.decode <$> Reader.take f.width

/-- A cell reads back what was written, whatever follows it. -/
theorem read_encode (f : Cell α) (a : α) (rest : List UInt8) :
    f.read (f.encode a ++ rest) = .ok (a, rest) := by
  change (Reader.take f.width (f.encode a ++ rest) >>= fun p => Except.ok (f.decode p.1, p.2)) = _
  rw [Reader.take_append (f.length_encode a)]
  change Except.ok (f.decode (f.encode a), rest) = _
  rw [f.decode_encode]

theorem consumes_read (f : Cell α) : Consumes f.read := Consumes.map (Consumes.take _) _

/-- A cell that holds a big-endian number. -/
def ofNumber (width : Nat) (ofNat : Nat → α) (toNat : α → Nat)
    (toNat_lt : ∀ a, toNat a < BigEndian.capacity width) (ofNat_toNat : ∀ a, ofNat (toNat a) = a) :
    Cell α where
  width := width
  decode bytes := ofNat (BigEndian.ofBytes bytes)
  encode a := BigEndian.toBytes width (toNat a)
  length_encode a := BigEndian.length_toBytes width (toNat a)
  decode_encode a := by rw [BigEndian.ofBytes_toBytes_of_lt (toNat_lt a), ofNat_toNat]

/-- An unsigned byte. -/
def uint8 : Cell UInt8 :=
  ofNumber 1 UInt8.ofNat UInt8.toNat UInt8.toNat_lt (fun _ => UInt8.ofNat_toNat)

/-- A signed byte. -/
def int8 : Cell Int8 :=
  ofNumber 1 Int8.ofNat (·.toUInt8.toNat) (fun n => n.toUInt8.toNat_lt) fun n => by
    simp [Int8.ofNat]

/-- An unsigned number of two bytes. -/
def uint16 : Cell UInt16 :=
  ofNumber 2 UInt16.ofNat UInt16.toNat UInt16.toNat_lt (fun _ => UInt16.ofNat_toNat)

/-- A signed number of two bytes. -/
def int16 : Cell Int16 :=
  ofNumber 2 Int16.ofNat (·.toUInt16.toNat) (fun n => n.toUInt16.toNat_lt) fun n => by
    simp [Int16.ofNat]

/-- An unsigned number of three bytes. -/
def uint24 : Cell (BitVec 24) :=
  ofNumber 3 (BitVec.ofNat 24) BitVec.toNat BitVec.isLt fun n => by simp

/-- An unsigned number of four bytes. -/
def uint32 : Cell UInt32 :=
  ofNumber 4 UInt32.ofNat UInt32.toNat UInt32.toNat_lt (fun _ => UInt32.ofNat_toNat)

/-- A signed number of four bytes. -/
def int32 : Cell Int32 :=
  ofNumber 4 Int32.ofNat (·.toUInt32.toNat) (fun n => n.toUInt32.toNat_lt) fun n => by
    simp [Int32.ofNat]

/-- Two cells, one after the other. -/
def pair (f : Cell α) (g : Cell β) : Cell (α × β) where
  width := f.width + g.width
  decode bytes := (f.decode (bytes.take f.width), g.decode (bytes.drop f.width))
  encode p := f.encode p.1 ++ g.encode p.2
  length_encode p := by rw [List.length_append, f.length_encode, g.length_encode]
  decode_encode p := by
    rw [← f.length_encode p.1, List.take_left, List.drop_left, f.decode_encode, g.decode_encode]

/-- The same bytes for other names of the values. -/
def rename (f : Cell α) (name : α → β) (value : β → α) (name_value : ∀ b, name (value b) = b) :
    Cell β where
  width := f.width
  decode bytes := name (f.decode bytes)
  encode b := f.encode (value b)
  length_encode b := f.length_encode (value b)
  decode_encode b := by rw [f.decode_encode, name_value]

end Cell

end CompactFont
