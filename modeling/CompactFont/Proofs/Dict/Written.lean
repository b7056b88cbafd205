import CompactFont.Dict.Basic
import CompactFont.Proofs.Bytes.Exact

/-!
# DICTs as they are written

Every token of a DICT is told by its own bytes: they are read back as that token, whatever comes after
them (`Token.Written`). This is so for operators of one byte and of two, for integers in each form that
has room for them, and for real numbers that end where their bytes do (`Operand.IsWritten`). So the bytes
of several entries are split into the tokens that were put together, and these make up the entries again,
provided that each operator accepts as many operands as it has.

**`ofBytes_written`** says so of any number of entries, each operand with bytes of its own choice, and of
whatever comes after them: no entry reaches into the next one. `ofBytes_encode` is the case in which
each operand comes with the form to write it in.
-/

namespace CompactFont

namespace Dict

/-! ### Tokens -/

/-- The bytes are read as the token, whatever comes after them. -/
def Token.Written (token : Token) (bytes : List UInt8) : Prop :=
  ∃ b taken, bytes = b :: taken ∧
    ∀ rest, Token.readAfter b (taken ++ rest) = .ok (token, rest)

theorem tokens_append {token : Token} {bytes : List UInt8} (h : token.Written bytes)
    (rest : List UInt8) : tokens (bytes ++ rest) = (token :: ·) <$> tokens rest := by
  obtain ⟨b, taken, rfl, read⟩ := h
  rw [List.cons_append, tokens]
  split
  · rename_i hread
    rw [read] at hread
    cases hread
  · rename_i hread
    rw [read] at hread
    cases hread
    cases tokens rest <;> rfl

theorem written_operator (op : Operator) : (Token.operator op.key).Written op.encode := by
  cases op <;> exact ⟨_, _, rfl, fun rest => rfl⟩

/-- The bytes from 32 to 246 are integers. -/
theorem readAfter_ofByte {b : UInt8} (low : 32 ≤ b) (high : b ≤ 246) (rest : List UInt8) :
    Token.readAfter b rest = .ok (Token.integer (IntForm.ofByte b), rest) := by
  have above : ∀ c < 32, b ≠ c := fun c hc is => UInt8.not_le.mpr hc (is ▸ low)
  have notBelow : ¬b < 32 := UInt8.not_lt.mpr low
  have notLast : b ≠ 255 := fun is => absurd (is ▸ high) (by decide)
  have notOperator : ¬b ≤ 21 := fun le => notBelow (UInt8.lt_of_le_of_lt le (by decide))
  rw [Token.readAfter, if_neg (above 12 (by decide)), if_neg notOperator,
    if_neg (above 28 (by decide)), if_neg (above 29 (by decide)), if_neg (above 30 (by decide)),
    if_neg (not_or.mpr ⟨notBelow, notLast⟩), if_pos high]
  rfl

/-- The bytes from 247 to 254 begin integers of two bytes. -/
theorem readAfter_ofBytes {b c : UInt8} (low : 247 ≤ b) (high : b ≤ 254) (rest : List UInt8) :
    Token.readAfter b (c :: rest) = .ok (Token.integer (IntForm.ofBytes b c), rest) := by
  have above : ∀ d < 247, b ≠ d := fun d hd is => UInt8.not_le.mpr hd (is ▸ low)
  have notBelow {d : UInt8} (hd : d < 247) : ¬b ≤ d := fun le =>
    UInt8.not_le.mpr (UInt8.lt_of_le_of_lt le hd) low
  have notLast : b ≠ 255 := fun is => absurd (is ▸ high) (by decide)
  have notReserved : ¬b < 32 := fun lt => notBelow (by decide) (UInt8.le_of_lt lt)
  rw [Token.readAfter, if_neg (above 12 (by decide)), if_neg (notBelow (by decide)),
    if_neg (above 28 (by decide)), if_neg (above 29 (by decide)), if_neg (above 30 (by decide)),
    if_neg (not_or.mpr ⟨notReserved, notLast⟩), if_neg (notBelow (by decide))]
  exact Reader.map_of (Cell.read_uint8 c rest) _

theorem written_integer {n : Int32} {form : IntForm} (fits : form.Fits n.toInt) :
    (Token.operand (.integer n)).Written (form.encode n.toInt) := by
  have same : Token.integer n.toInt = .operand (.integer n) := by
    rw [Token.integer, Int32.ofInt_toInt]
  cases form with
  | oneByte =>
    obtain ⟨b, bytes, low, high, value⟩ := IntForm.ofByte_encode fits
    refine ⟨b, [], bytes, fun rest => ?_⟩
    rw [List.nil_append, readAfter_ofByte low high, value, same]
  | twoBytes =>
    obtain ⟨b, c, bytes, low, high, value⟩ := IntForm.ofBytes_encode fits
    refine ⟨b, [c], bytes, fun rest => ?_⟩
    rw [List.singleton_append, readAfter_ofBytes low high, value, same]
  | short =>
    refine ⟨28, _, rfl, fun rest => ?_⟩
    have value : (Int16.ofInt n.toInt).toInt32 = n := by
      obtain ⟨low, high⟩ := fits
      apply Int32.toInt_inj.mp
      rw [Int16.toInt_toInt32, Int16.toInt_ofInt_of_le low (Int.lt_add_one_of_le high)]
    show ((fun n => Token.operand (.integer n.toInt32)) <$> Cell.int16.read) _ = _
    rw [Reader.map_of (Cell.read_encode Cell.int16 (Int16.ofInt n.toInt) rest), value]
  | long =>
    refine ⟨29, _, rfl, fun rest => ?_⟩
    show ((fun n => Token.operand (.integer n)) <$> Cell.int32.read) _ = _
    rw [Reader.map_of (Cell.read_encode Cell.int32 (Int32.ofInt n.toInt) rest), Int32.ofInt_toInt]

/-- A real number ends with the first byte that has the nibble for it. -/
theorem written_real {digits : List UInt8} {last : UInt8}
    (goesOn : ∀ b ∈ digits, Reader.hasNibble RealNumber.terminator b = false)
    (ends : Reader.hasNibble RealNumber.terminator last = true) :
    (Token.operand (.real (digits ++ [last]))).Written (30 :: (digits ++ [last])) := by
  refine ⟨30, digits ++ [last], rfl, fun rest => ?_⟩
  have read : Reader.untilNibble RealNumber.terminator (digits ++ [last] ++ rest) =
      .ok (digits ++ [last], rest) := by
    have before : (digits ++ [last] ++ rest).takeWhile
        (fun b => !Reader.hasNibble RealNumber.terminator b) = digits := by
      rw [List.append_assoc, List.takeWhile_append_of_pos (by simpa using goesOn)]
      simp [ends]
    rw [Reader.untilNibble, before]
    exact Reader.take_append (by simp)
  exact Reader.map_of read _

end Dict

/-- The bytes are one of the ways to write an operand: an integer is written in any form that has room
for it, and a real number with a nibble that ends it in its last byte and in no other. -/
inductive Operand.IsWritten : Operand → List UInt8 → Prop where
  /-- An integer. -/
  | integer {n : Int32} {form : IntForm} (fits : form.Fits n.toInt) :
      IsWritten (.integer n) (form.encode n.toInt)
  /-- A real number. -/
  | real {digits : List UInt8} {last : UInt8}
      (goesOn : ∀ b ∈ digits, Reader.hasNibble RealNumber.terminator b = false)
      (ends : Reader.hasNibble RealNumber.terminator last = true) :
      IsWritten (.real (digits ++ [last])) (30 :: (digits ++ [last]))

/-- An operand is written in each form that has room for it. -/
theorem Operand.Fits.isWritten {value : Operand} {form : IntForm} (fits : value.Fits form) :
    value.IsWritten (value.encode form) := by
  cases value with
  | integer n => exact .integer fits
  | real bytes =>
    let ends := Reader.hasNibble RealNumber.terminator
    have length : bytes.findIdx ends + 1 = bytes.length := fits
    have found : bytes.findIdx ends < bytes.length := by omega
    have split : bytes = bytes.take (bytes.findIdx ends) ++ [bytes[bytes.findIdx ends]] := by
      rw [← List.take_succ_eq_append_getElem found, length, List.take_length]
    rw [encode, split]
    refine .real (fun b hb => ?_) (List.findIdx_getElem (w := found))
    obtain ⟨i, hi, rfl⟩ := List.mem_take_iff_getElem.mp hb
    exact List.not_of_lt_findIdx (Nat.lt_of_lt_of_le hi (Nat.min_le_left _ _))

namespace Dict

theorem written_operand {value : Operand} {bytes : List UInt8} (h : value.IsWritten bytes) :
    (Token.operand value).Written bytes := by
  cases h with
  | integer fits => exact written_integer fits
  | real goesOn ends => exact written_real goesOn ends

/-! ### Entries -/

/-- The bytes of an entry: those of its operands, and the operator. -/
def entryBytes (entry : Operator × List (Operand × List UInt8)) : List UInt8 :=
  entry.2.flatMap Prod.snd ++ entry.1.encode

/-- An entry without the bytes of its operands. -/
def withoutBytes (entry : Operator × List (Operand × List UInt8)) : Operator × List Operand :=
  (entry.1, entry.2.map Prod.fst)

/-- The entry can be written with these bytes: the operator accepts its operands, and the bytes of each
of them are a way to write it. -/
def EntryWritten (entry : Operator × List (Operand × List UInt8)) : Prop :=
  entry.1.kind.accepts entry.2.length = true ∧ ∀ operand ∈ entry.2, operand.1.IsWritten operand.2

theorem tokens_operands {operands : List (Operand × List UInt8)}
    (written : ∀ operand ∈ operands, operand.1.IsWritten operand.2) (rest : List UInt8) :
    tokens (operands.flatMap Prod.snd ++ rest) =
      (operands.map (fun operand => Token.operand operand.1) ++ ·) <$> tokens rest := by
  induction operands with
  | nil => cases h : tokens rest <;> simp [h]
  | cons operand operands ih =>
    obtain ⟨first, others⟩ := List.forall_mem_cons.mp written
    rw [List.flatMap_cons, List.append_assoc, tokens_append (written_operand first), ih others]
    cases tokens rest <;> rfl

/-- The tokens of entries, one entry after the other. -/
def tokensOf (entries : List (Operator × List (Operand × List UInt8))) : List Token :=
  entries.flatMap fun entry =>
    entry.2.map (fun operand => Token.operand operand.1) ++ [.operator entry.1.key]

theorem tokens_entries {entries : List (Operator × List (Operand × List UInt8))}
    (written : ∀ entry ∈ entries, EntryWritten entry) (rest : List UInt8) :
    tokens (entries.flatMap entryBytes ++ rest) = (tokensOf entries ++ ·) <$> tokens rest := by
  induction entries with
  | nil => cases h : tokens rest <;> simp [h, tokensOf]
  | cons entry entries ih =>
    obtain ⟨first, others⟩ := List.forall_mem_cons.mp written
    rw [List.flatMap_cons, entryBytes, List.append_assoc, List.append_assoc,
      tokens_operands first.2, tokens_append (written_operator entry.1), ih others]
    cases tokens rest <;> simp [tokensOf, Functor.map, Except.map]

theorem entriesOf_operands (held operands : List Operand) (more : List Token) :
    entriesOf held (operands.map .operand ++ more) = entriesOf (held ++ operands) more := by
  induction operands generalizing held with
  | nil => rw [List.map_nil, List.nil_append, List.append_nil]
  | cons value operands ih =>
    rw [List.map_cons, List.cons_append, entriesOf, ih, List.append_assoc, List.singleton_append]

/-- The tokens of entries make up these entries, and leave no operand to what comes after them. -/
theorem entriesOf_tokensOf {entries : List (Operator × List (Operand × List UInt8))}
    (written : ∀ entry ∈ entries, EntryWritten entry) (more : List Token) :
    entriesOf [] (tokensOf entries ++ more) = entries.map withoutBytes ++ entriesOf [] more := by
  induction entries with
  | nil => rfl
  | cons entry entries ih =>
    obtain ⟨first, others⟩ := List.forall_mem_cons.mp written
    have operands : entry.2.map (fun operand => Token.operand operand.1) =
        (entry.2.map Prod.fst).map .operand := by rw [List.map_map]; rfl
    rw [tokensOf, List.flatMap_cons, ← tokensOf, List.append_assoc, List.append_assoc, operands,
      entriesOf_operands, List.nil_append, List.singleton_append, entriesOf, Operator.ofKey?_key]
    simp only [List.length_map, first.1, if_true]
    rw [ih others]
    rfl

/-- Entries that are written come before those of the bytes that follow. -/
theorem ofBytes_append {entries : List (Operator × List (Operand × List UInt8))}
    (written : ∀ entry ∈ entries, EntryWritten entry) (kind : DictKind) (more : List UInt8) :
    ofBytes kind (entries.flatMap entryBytes ++ more) =
      (fun d => ⟨kind, entries.map withoutBytes ++ d.entries⟩) <$> ofBytes kind more := by
  rw [ofBytes, ofBytes, tokens_entries written]
  cases tokens more with
  | error fault => rfl
  | ok following =>
    show Except.ok (Dict.mk kind (entriesOf [] (tokensOf entries ++ following))) = _
    rw [entriesOf_tokensOf written]
    rfl

theorem ofBytes_nil (kind : DictKind) : ofBytes kind [] = .ok ⟨kind, []⟩ := by
  rw [ofBytes, tokens]
  rfl

/-- **Entries come back from the bytes of a DICT**: as many as there are, each with its operator and its
operands, in order. Whatever is written after them is read by itself. -/
theorem ofBytes_written {entries : List (Operator × List (Operand × List UInt8))}
    (written : ∀ entry ∈ entries, EntryWritten entry) (kind : DictKind) :
    ofBytes kind (entries.flatMap entryBytes) = .ok ⟨kind, entries.map withoutBytes⟩ ∧
      ∀ more, ofBytes kind (entries.flatMap entryBytes ++ more) =
        (fun d => ⟨kind, entries.map withoutBytes ++ d.entries⟩) <$> ofBytes kind more := by
  refine ⟨?_, ofBytes_append written kind⟩
  rw [← List.append_nil (entries.flatMap entryBytes), ofBytes_append written, ofBytes_nil]
  show Except.ok (Dict.mk kind (entries.map withoutBytes ++ [])) = _
  rw [List.append_nil]

/-- Integers in each form, the number 0 in two of them, and a real number in which a byte 28 stands, before
operators of one byte and of two, one of them without operands. -/
theorem ofBytes_written_mixed :
    let bytes : List UInt8 := [139, 28, 0, 0, 254, 255, 29, 128, 0, 0, 0, 5,
      30, 0x1c, 0x28, 0x5f, 12, 9, 6, 250, 255, 17]
    let entries : List (Operator × List Operand) := [
      (.fontBBox, [.integer 0, .integer 0, .integer (-1131), .integer (-2147483648)]),
      (.blueScale, [.real [0x1c, 0x28, 0x5f]]),
      (.blueValues, []),
      (.charStrings, [.integer 1131])]
    ofBytes .top bytes = .ok ⟨.top, entries⟩ := by
  refine (@ofBytes_written [
    (.fontBBox, [(.integer 0, [139]), (.integer 0, [28, 0, 0]), (.integer (-1131), [254, 255]),
      (.integer (-2147483648), [29, 128, 0, 0, 0])]),
    (.blueScale, [(.real [0x1c, 0x28, 0x5f], [30, 0x1c, 0x28, 0x5f])]),
    (.blueValues, []),
    (.charStrings, [(.integer 1131, [250, 255])])] ?_ .top).1
  simp only [List.forall_mem_cons, EntryWritten]
  refine ⟨⟨rfl, ?_, ?_, ?_, ?_, nofun⟩, ⟨rfl, ?_, nofun⟩, ⟨rfl, nofun⟩, ⟨rfl, ?_, nofun⟩, nofun⟩
  · exact @Operand.IsWritten.integer 0 .oneByte (by decide)
  · exact @Operand.IsWritten.integer 0 .short (by decide)
  · exact @Operand.IsWritten.integer (-1131) .twoBytes (by decide)
  · exact @Operand.IsWritten.integer (-2147483648) .long (by decide)
  · exact @Operand.IsWritten.real [0x1c, 0x28] 0x5f
      (List.forall_mem_cons.mpr ⟨rfl, List.forall_mem_singleton.mpr rfl⟩) rfl
  · exact @Operand.IsWritten.integer 1131 .twoBytes (by decide)

/-! ### Operands with forms -/

/-- An entry that can be written: the operator accepts its operands, and each of them has a form with
room for it. -/
def Writable (entry : Operator × List (Operand × IntForm)) : Prop :=
  entry.1.kind.accepts entry.2.length = true ∧ ∀ operand ∈ entry.2, operand.1.Fits operand.2

/-- An entry without the forms in which its operands are written. -/
def withoutForms (entry : Operator × List (Operand × IntForm)) : Operator × List Operand :=
  (entry.1, entry.2.map Prod.fst)

/-- An entry with the bytes that the forms of its operands tell. -/
def withBytes (entry : Operator × List (Operand × IntForm)) : Operator × List (Operand × List UInt8) :=
  (entry.1, entry.2.map fun (value, form) => (value, value.encode form))

theorem Writable.entryWritten {entry : Operator × List (Operand × IntForm)} (h : Writable entry) :
    EntryWritten (withBytes entry) := by
  refine ⟨by simpa [withBytes] using h.1, fun operand mem => ?_⟩
  obtain ⟨⟨value, form⟩, inside, rfl⟩ := List.mem_map.mp mem
  exact (h.2 _ inside).isWritten

/-- Entries come back from the bytes in which they are written, each operand in its form. -/
theorem ofBytes_encode {entries : List (Operator × List (Operand × IntForm))}
    (writable : ∀ entry ∈ entries, Writable entry) (kind : DictKind) :
    ofBytes kind (encode entries) = .ok ⟨kind, entries.map withoutForms⟩ := by
  have bytes : encode entries = (entries.map withBytes).flatMap entryBytes ++ [] := by
    simp [encode, List.flatMap_map, entryBytes, withBytes]
  have written : ∀ entry ∈ entries.map withBytes, EntryWritten entry := by
    intro entry mem
    obtain ⟨formed, inside, rfl⟩ := List.mem_map.mp mem
    exact (writable formed inside).entryWritten
  rw [bytes, ofBytes_append written, ofBytes_nil]
  simp [Functor.map, Except.map, withoutBytes, withoutForms, withBytes]

end Dict

end CompactFont
