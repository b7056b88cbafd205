import CompactFont.Proofs.Charset

/-!
# FDSelect, encodings and charsets as they are written

What `encode` writes for a table is read back as that table, wherever it stands in the data
(`ReadsInPlace`), and the reader leaves what follows: **`readsInPlace_tables`** says so of FDSelect,
of the encodings and of the charsets that a font holds.

A reader reads a value off some bytes if it does so whatever follows them (`Reads`). Readers in
sequence read off their bytes in sequence, so that the tables follow from their cells. Only the runs of
a charset do not say how many they are: they are counted beforehand, until they cover all glyphs. If
they cover the glyphs and do not without the last run (`CustomCharset.RunsCover`), just these runs are
counted, whatever comes after them (`CustomCharset.countRuns_encode`).
-/

namespace CompactFont

variable {ε α β : Type}

/-! ### Readers of bytes with others after them -/

/-- The reader reads the value off these bytes, whatever follows them. -/
def Reads (r : ReaderOf ε α) (bytes : List UInt8) (value : α) : Prop :=
  ∀ rest, r (bytes ++ rest) = .ok (value, rest)

/-- A cursor at these bytes, wherever they stand, reads the value, and then it stands after them. -/
def ReadsInPlace (r : ReaderOf ε α) (bytes : List UInt8) (value : α) : Prop :=
  ∀ base before rest, Cursor.read ⟨⟨base, before ++ (bytes ++ rest)⟩, before.length⟩ r =
    .ok (value, ⟨⟨base, before ++ (bytes ++ rest)⟩, before.length + bytes.length⟩)

namespace Reads

variable {r : ReaderOf ε α} {bytes bytes' : List UInt8} {a : α} {b : β}

theorem inPlace (h : Reads r bytes a) : ReadsInPlace r bytes a := by
  intro base before rest
  exact Cursor.read_of_append (h rest) base before

theorem pure (a : α) : Reads (Pure.pure a : ReaderOf ε α) [] a := fun _ => rfl

theorem bind {f : α → ReaderOf ε β} (h : Reads r bytes a) (h' : Reads (f a) bytes' b) :
    Reads (r >>= f) (bytes ++ bytes') b := by
  intro rest
  rw [List.append_assoc, Reader.bind_of (h _), h']

theorem map (h : Reads r bytes a) (f : α → β) : Reads (f <$> r) bytes (f a) := by
  intro rest
  exact Reader.map_of (h rest) f

theorem lift {r : Reader α} (h : Reads r bytes a) : Reads (liftM r : TableReader α) bytes a := by
  intro rest
  exact lift_eq_ok.mpr (h rest)

theorem cell (cell : Cell α) (a : α) : Reads cell.read (cell.encode a) a := cell.read_encode a

theorem uint8 (b : UInt8) : Reads Cell.uint8.read [b] b := Cell.read_uint8 b

end Reads

/-! ### Cells in a row -/

namespace Packed

theorem length_flatMap_encode (cell : Cell α) (items : List α) :
    (items.flatMap cell.encode).length = items.length * cell.width := by
  induction items with
  | nil => exact (Nat.zero_mul _).symm
  | cons item items ih =>
    rw [List.flatMap_cons, List.length_append, cell.length_encode, ih, List.length_cons,
      Nat.succ_mul, Nat.add_comm]

theorem values_flatMap_encode (cell : Cell α) (items : List α) :
    values cell items.length (items.flatMap cell.encode) = items := by
  induction items with
  | nil => rfl
  | cons item items ih =>
    rw [List.length_cons, List.flatMap_cons, values, cell.read_encode]
    exact congrArg (item :: ·) ih

/-- As many cells as were written are read, if their bytes can be counted. -/
theorem reads_readList {cell : Cell α} {items : List α}
    (small : (items.flatMap cell.encode).length < sizeLimit) :
    Reads (readList cell items.length) (items.flatMap cell.encode) items := by
  have length := length_flatMap_encode cell items
  intro rest
  have read : read cell items.length (items.flatMap cell.encode ++ rest) =
      .ok (⟨cell, items.length, items.flatMap cell.encode⟩, rest) :=
    read_eq_ok.mpr ⟨by omega, _, length, rfl, rfl⟩
  rw [readList, Reader.map_of read, toList, values_flatMap_encode]

/-- So few cells of so few bytes can always be counted. -/
theorem length_lt_sizeLimit {cell : Cell α} {items : List α} (few : items.length < UInt16.size)
    (narrow : cell.width ≤ 4) : (items.flatMap cell.encode).length < sizeLimit := by
  have bound : items.length * cell.width ≤ UInt16.size * 4 :=
    Nat.mul_le_mul (Nat.le_of_lt few) narrow
  rw [length_flatMap_encode]
  exact Nat.lt_of_le_of_lt bound (by decide)

end Packed

/-! ### FDSelect -/

theorem FdSelect.reads_encode {select : FdSelect} (few : select.ranges.size ≤ 65535) :
    Reads FdSelect.read select.encode select := by
  obtain ⟨⟨ranges⟩, sentinel⟩ := select
  have count : (UInt16.ofNat ranges.length).toNat = ranges.length :=
    UInt16.toNat_ofNat_of_lt' (Nat.lt_succ_of_le few)
  have list : Reads (Packed.readList FdRange.cell (UInt16.ofNat ranges.length).toNat)
      (ranges.flatMap FdRange.cell.encode) ranges := by
    rw [count]
    exact Packed.reads_readList (Packed.length_lt_sizeLimit (Nat.lt_succ_of_le few) (by decide))
  have split : encode ⟨⟨ranges⟩, sentinel⟩ = [format] ++
      (Cell.uint16.encode (UInt16.ofNat ranges.length) ++
        (ranges.flatMap FdRange.cell.encode ++ Cell.uint16.encode sentinel)) :=
    congrArg (format :: ·) (List.append_assoc _ _ _)
  rw [split]
  refine (Reads.uint8 format).lift.bind ?_
  rw [if_pos rfl]
  refine (Reads.cell Cell.uint16 _).lift.bind (list.lift.bind ?_)
  exact (Reads.cell Cell.uint16 sentinel).lift.map (FdSelect.mk ⟨ranges⟩)

/-! ### Encodings -/

/-- How many codes, or runs of them, there are. -/
def EncodingCodes.count : EncodingCodes → Nat
  | .list items => items.length
  | .runs items => items.length

namespace CustomEncoding

/-- The lists of the encoding are not longer than a byte can tell, and there are no supplements unless
they are to be written. -/
structure Fits (encoding : CustomEncoding) (withSupplements : Bool) : Prop where
  /-- The codes are not too many. -/
  codes : encoding.codes.count ≤ 255
  /-- Nor are the supplements. -/
  supplements : encoding.supplements.length ≤ 255
  /-- What is not written is not there. -/
  unwritten : withSupplements = false → encoding.supplements = []

/-- A list with its length in the byte before it is read back. -/
theorem reads_encodeCounted {α : Type} {cell : Cell α} {items : List α} (few : items.length ≤ 255)
    (narrow : cell.width ≤ 4) : Reads (readCounted cell) (encodeCounted cell items) items := by
  have count : (UInt8.ofNat items.length).toNat = items.length :=
    UInt8.toNat_ofNat_of_lt' (Nat.lt_succ_of_le few)
  refine Reads.bind (Reads.uint8 (UInt8.ofNat items.length)) ?_
  rw [count]
  exact Packed.reads_readList
    (Packed.length_lt_sizeLimit (Nat.lt_of_le_of_lt few (by decide)) narrow)

/-- The format of the codes, with the bit for supplements or without it. -/
def formatOf (codes : EncodingCodes) (withSupplements : Bool) : UInt8 :=
  if withSupplements then codes.format ||| supplementBit else codes.format

/-- The codes as they are written. -/
def encodeCodes : EncodingCodes → List UInt8
  | .list items => encodeCounted Cell.uint8 items
  | .runs items => encodeCounted Run.bytes items

/-- The supplements as they are written, if they are. -/
def encodeSupplements (supplements : List Supplement) (withSupplements : Bool) : List UInt8 :=
  if withSupplements then encodeCounted Supplement.cell supplements else []

theorem encode_eq (codes : EncodingCodes) (supplements : List Supplement) (withSupplements : Bool) :
    encode ⟨codes, supplements⟩ withSupplements = [formatOf codes withSupplements] ++
      (encodeCodes codes ++ encodeSupplements supplements withSupplements) := by
  cases withSupplements with
  | true => cases codes <;> rfl
  | false =>
    rw [encodeSupplements, if_neg Bool.false_ne_true, List.append_nil]
    cases codes <;> rfl

/-- The bit for supplements and the number of the format do not meet. -/
theorem formatOf_bits (codes : EncodingCodes) (withSupplements : Bool) :
    formatOf codes withSupplements &&& ~~~supplementBit = codes.format ∧
      (formatOf codes withSupplements &&& supplementBit = supplementBit ↔
        withSupplements = true) := by
  have known : codes.format = 0 ∨ codes.format = 1 := by
    cases codes with
    | list items => exact .inl rfl
    | runs items => exact .inr rfl
  rw [formatOf]
  rcases known with h | h <;> rw [h] <;> cases withSupplements <;> decide

/-- The supplements are read if the format says that there are any. -/
theorem reads_supplements {codes : EncodingCodes} {supplements : List Supplement}
    {withSupplements : Bool} {format : UInt8} (fits : Fits ⟨codes, supplements⟩ withSupplements)
    (bit : format &&& supplementBit = supplementBit ↔ withSupplements = true) :
    Reads (if format &&& supplementBit = supplementBit then do
        return ⟨codes, ← (readCounted Supplement.cell : Reader _)⟩
      else return ⟨codes, []⟩ : TableReader CustomEncoding)
      (encodeSupplements supplements withSupplements) ⟨codes, supplements⟩ := by
  cases withSupplements with
  | true =>
    rw [if_pos (bit.mpr rfl), encodeSupplements, if_pos rfl]
    exact (reads_encodeCounted fits.supplements (by decide)).lift.map (CustomEncoding.mk codes)
  | false =>
    have none : supplements = [] := fits.unwritten rfl
    rw [if_neg fun high => Bool.false_ne_true (bit.mp high), encodeSupplements,
      if_neg Bool.false_ne_true, none]
    exact Reads.pure _

theorem reads_encode {encoding : CustomEncoding} {withSupplements : Bool}
    (fits : encoding.Fits withSupplements) :
    Reads CustomEncoding.read (encoding.encode withSupplements) encoding := by
  obtain ⟨codes, supplements⟩ := encoding
  obtain ⟨kind, bit⟩ := formatOf_bits codes withSupplements
  have supplement := reads_supplements fits bit
  rw [encode_eq]
  refine (Reads.uint8 _).lift.bind ?_
  dsimp only
  rw [kind]
  cases codes with
  | list items =>
    exact ((reads_encodeCounted fits.codes (by decide)).lift.map EncodingCodes.list).bind supplement
  | runs items =>
    exact ((reads_encodeCounted fits.codes (by decide)).lift.map EncodingCodes.runs).bind supplement

end CustomEncoding

/-! ### Charsets -/

namespace CustomCharset

/-- How many glyphs the runs are for. -/
def covered {Left : Type} (left : Left → Nat) : List (Run UInt16 Left) → Nat
  | [] => 0
  | run :: runs => left run.left + 1 + covered left runs

/-- The runs are for so many glyphs or more, and for fewer without the last run. -/
def RunsCover {Left : Type} (left : Left → Nat) (glyphs : Nat) (runs : List (Run UInt16 Left)) :
    Prop :=
  glyphs ≤ covered left runs ∧ (runs ≠ [] → covered left runs.dropLast < glyphs)

/-- The charset is one for so many glyphs, the first of which is left out. -/
def Covers (charset : CustomCharset) (glyphs : Nat) : Prop :=
  1 ≤ glyphs ∧ match charset with
    | .list sids => sids.length = glyphs - 1
    | .short runs => RunsCover UInt8.toNat (glyphs - 1) runs
    | .long runs => RunsCover UInt16.toNat (glyphs - 1) runs

section

variable {Left : Type} {left : Left → Nat} {glyphs : Nat}

theorem runsCover_nil (h : RunsCover left glyphs []) : glyphs = 0 := Nat.le_zero.mp h.1

/-- The runs after the first one are for the glyphs that it leaves. -/
theorem runsCover_cons {run : Run UInt16 Left} {runs : List (Run UInt16 Left)}
    (h : RunsCover left glyphs (run :: runs)) :
    glyphs ≠ 0 ∧ RunsCover left (glyphs - (left run.left + 1)) runs := by
  obtain ⟨enough, needed⟩ := h
  have needed := needed (List.cons_ne_nil run runs)
  rw [covered] at enough
  refine ⟨by omega, by omega, fun some => ?_⟩
  rw [List.dropLast_cons_of_ne_nil some, covered] at needed
  omega

/-- Just the runs that cover the glyphs are counted. -/
theorem countRuns_encode {cell : Cell (Run UInt16 Left)} {runs : List (Run UInt16 Left)}
    (h : RunsCover left glyphs runs) (rest : List UInt8) :
    countRuns cell left glyphs (runs.flatMap cell.encode ++ rest) = .ok runs.length := by
  induction runs generalizing glyphs with
  | nil =>
    rw [runsCover_nil h]
    exact countRuns_zero cell left rest
  | cons run runs ih =>
    obtain ⟨some, others⟩ := runsCover_cons h
    rw [List.flatMap_cons, List.append_assoc]
    exact countRuns_cons some (cell.read_encode run _) (ih others)

theorem reads_readRuns {cell : Cell (Run UInt16 Left)} {runs : List (Run UInt16 Left)}
    (h : RunsCover left glyphs runs)
    (small : (runs.flatMap cell.encode).length < Packed.sizeLimit) :
    Reads (readRuns cell left glyphs) (runs.flatMap cell.encode) runs := by
  intro rest
  rw [readRuns, countRuns_encode h rest]
  exact Packed.reads_readList small rest

end

theorem reads_encode {charset : CustomCharset} {glyphs : Nat} (covers : charset.Covers glyphs)
    (small : charset.encode.length < Packed.sizeLimit) :
    Reads (CustomCharset.read glyphs) charset.encode charset := by
  obtain ⟨some, covers⟩ := covers
  have nonzero : glyphs ≠ 0 := Nat.ne_of_gt some
  unfold CustomCharset.read
  dsimp only
  rw [if_neg nonzero]
  cases charset with
  | list sids =>
    have list : Reads (Packed.readList Cell.uint16 (glyphs - 1)) (sids.flatMap Cell.uint16.encode)
        sids := by
      rw [← covers]
      exact Packed.reads_readList (Nat.lt_of_succ_lt small)
    exact (Reads.uint8 0).lift.bind (list.lift.map CustomCharset.list)
  | short runs =>
    have runs := reads_readRuns covers (Nat.lt_of_succ_lt small)
    exact (Reads.uint8 1).lift.bind (runs.lift.map short)
  | long runs =>
    have runs := reads_readRuns covers (Nat.lt_of_succ_lt small)
    exact (Reads.uint8 2).lift.bind (runs.lift.map long)

end CustomCharset

/-! ### All of them -/

/-- **Tables are read back.** What is written of FDSelect with at most 65535 ranges, of an encoding
whose lists are not longer than a byte can tell, or of a charset for a number of glyphs, is read as the
same table by a cursor that stands at it, anywhere in the data, and the cursor stands after it then. The
charset is one whose runs cover all glyphs and do not without the last run; its bytes can be counted, as
those of all data can. -/
theorem readsInPlace_tables :
    (∀ select : FdSelect, select.ranges.size ≤ 65535 →
      ReadsInPlace FdSelect.read select.encode select) ∧
    (∀ (encoding : CustomEncoding) (withSupplements : Bool), encoding.Fits withSupplements →
      ReadsInPlace CustomEncoding.read (encoding.encode withSupplements) encoding) ∧
    ∀ (charset : CustomCharset) (glyphs : Nat), charset.Covers glyphs →
      charset.encode.length < Packed.sizeLimit →
      ReadsInPlace (CustomCharset.read glyphs) charset.encode charset := by
  refine ⟨?fdSelect, ?encoding, ?charset⟩
  case fdSelect =>
    intro select few
    exact (FdSelect.reads_encode few).inPlace
  case encoding =>
    intro encoding withSupplements fits
    exact (CustomEncoding.reads_encode fits).inPlace
  case charset =>
    intro charset glyphs covers small
    exact (CustomCharset.reads_encode covers small).inPlace

/-- Two ranges; runs of codes, and a supplement; and runs for five glyphs, of which the last is longer
than it need be. -/
theorem readsInPlace_tables_runs :
    let select : FdSelect := ⟨#[⟨0, 1⟩, ⟨5, 0⟩], 9⟩
    let encoding : CustomEncoding := ⟨.runs [⟨65, 2⟩, ⟨70, 0⟩], [⟨97, 34⟩]⟩
    let charset : CustomCharset := .short [⟨34, 1⟩, ⟨100, 5⟩]
    select.ranges.size ≤ 65535 ∧ encoding.Fits true ∧ charset.Covers 5 ∧
      charset.encode.length < Packed.sizeLimit ∧
      select.encode = [3, 0, 2, 0, 0, 1, 0, 5, 0, 0, 9] ∧
      ReadsInPlace FdSelect.read select.encode select ∧
      encoding.encode true = [129, 2, 65, 2, 70, 0, 1, 97, 0, 34] ∧
      ReadsInPlace CustomEncoding.read (encoding.encode true) encoding ∧
      charset.encode = [1, 0, 34, 1, 0, 100, 5] ∧
      ReadsInPlace (CustomCharset.read 5) charset.encode charset := by
  intro select encoding charset
  have few : select.ranges.size ≤ 65535 := by decide
  have fits : encoding.Fits true := ⟨by decide, by decide, fun h => absurd h.symm Bool.false_ne_true⟩
  have covers : charset.Covers 5 := ⟨by decide, by decide, fun _ => by decide⟩
  have small : charset.encode.length < Packed.sizeLimit := by decide
  obtain ⟨readSelect, readEncoding, readCharset⟩ := readsInPlace_tables
  exact ⟨few, fits, covers, small, by decide, readSelect select few, by decide,
    readEncoding encoding true fits, by decide, readCharset charset 5 covers small⟩

end CompactFont
