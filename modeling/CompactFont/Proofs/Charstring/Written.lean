import CompactFont.Proofs.Charstring.Spelling
import CompactFont.Proofs.Dict.Entries

/-!
# Operands of a charstring as they are written

An operand of a charstring is told by its own bytes, an integer in each form that has room for it
(`Operand.exists_readAfter`). So a charstring of operands is decoded into their loads, one by one, although
their bytes may be those of operators too.

Charstrings and DICTs have readers of their own, and each knows the forms of integers by itself. On
integers of 16 bits the two do not differ: they take the same bytes for the same numbers (`decode_written`).
-/

namespace CompactFont

/-! ### Readers that are repeated -/

/-- So many values, one after the other. -/
def Reader.times {ε α : Type} (r : ReaderOf ε α) : Nat → ReaderOf ε (List α)
  | 0 => pure []
  | n + 1 => do
    let value ← r
    let others ← times r n
    return value :: others

/-- A reader that reads each item off its own bytes reads all of them, and leaves what comes after. -/
theorem Reader.times_flatMap {ε ι α : Type} {r : ReaderOf ε α} {items : List ι} {bytes : ι → List UInt8}
    {value : ι → α} (each : ∀ i ∈ items, ∀ rest, r (bytes i ++ rest) = .ok (value i, rest))
    (rest : List UInt8) :
    times r items.length (items.flatMap bytes ++ rest) = .ok (items.map value, rest) := by
  induction items with
  | nil => rfl
  | cons i items ih =>
    obtain ⟨first, others⟩ := List.forall_mem_cons.mp each
    rw [List.flatMap_cons, List.append_assoc, List.length_cons, times, bind_of (first _),
      bind_of (ih others)]
    rfl

/-- A token of a DICT. -/
def Dict.Token.read : Reader Dict.Token := Cell.uint8.read >>= Dict.Token.readAfter

theorem Dict.Token.Written.read {token : Dict.Token} {bytes : List UInt8} (h : token.Written bytes)
    (rest : List UInt8) : Dict.Token.read (bytes ++ rest) = .ok (token, rest) := by
  obtain ⟨b, taken, rfl, read⟩ := h
  rw [List.cons_append, Dict.Token.read, Reader.bind_of (Cell.read_uint8 b _)]
  exact read rest

/-- The tokens that some bytes are made of are read one by one. -/
theorem Dict.tokens_of_times {n : Nat} {bytes rest : List UInt8} {found : List Dict.Token}
    (h : Reader.times Dict.Token.read n bytes = .ok (found, rest)) :
    Dict.tokens bytes = (found ++ ·) <$> Dict.tokens rest := by
  induction n generalizing bytes found with
  | zero =>
    cases h
    cases Dict.tokens rest <;> rfl
  | succ n ih =>
    obtain ⟨⟨token, left⟩, first, h⟩ := bind_eq_ok.mp h
    obtain ⟨⟨others, rest⟩, next, h⟩ := bind_eq_ok.mp h
    cases h
    obtain ⟨⟨b, after⟩, front, read⟩ := bind_eq_ok.mp first
    obtain ⟨taken, split, written⟩ := Dict.Token.exists_written read
    rw [Cell.read_uint8_eq_ok front, split, Dict.tokens_append written, ih next]
    cases Dict.tokens rest <;> rfl

namespace Charstring

/-- A token of a charstring, without the bytes of a mask. -/
def Token.read : Reader Token := Cell.uint8.read >>= Token.readAfter

/-! ### One operand -/

/-- The bytes from 32 to 246 are integers. -/
theorem Token.readAfter_ofByte {b : UInt8} (low : 32 ≤ b) (high : b ≤ 246) (rest : List UInt8) :
    Token.readAfter b rest = .ok (Token.int (IntForm.ofByte b), rest) := by
  have above : ∀ c < 32, b ≠ c := fun c hc is => UInt8.not_le.mpr hc (is ▸ low)
  rw [Token.readAfter, if_neg (above 12 (by decide)), if_neg (above 28 (by decide)),
    if_neg (UInt8.not_lt.mpr low), if_pos high]
  rfl

/-- The bytes from 247 to 254 begin integers of two bytes. -/
theorem Token.readAfter_ofBytes {b c : UInt8} (low : 247 ≤ b) (high : b ≤ 254) (rest : List UInt8) :
    Token.readAfter b (c :: rest) = .ok (Token.int (IntForm.ofBytes b c), rest) := by
  have above : ∀ d < 247, b ≠ d := fun d hd is => UInt8.not_le.mpr hd (is ▸ low)
  have notOperator : ¬b < 32 := UInt8.not_lt.mpr (UInt8.le_trans (by decide) low)
  have notOneByte : ¬b ≤ 246 := UInt8.not_le.mpr (UInt8.lt_of_lt_of_le (by decide) low)
  rw [Token.readAfter, if_neg (above 12 (by decide)), if_neg (above 28 (by decide)),
    if_neg notOperator, if_neg notOneByte, if_pos high]
  exact Reader.map_of (Cell.read_uint8 c rest) _

/-- An operand is read back from the bytes in which it is written, whatever comes after them. -/
theorem Operand.exists_readAfter {value : Operand} {form : IntForm} (fits : value.Fits form) :
    ∃ b taken, value.encode form = b :: taken ∧
      ∀ rest, Token.readAfter b (taken ++ rest) = .ok (.operand value, rest) := by
  cases value with
  | fixed n =>
    refine ⟨255, _, rfl, fun rest => ?_⟩
    exact Reader.map_of (Cell.read_encode Cell.int32 n rest) _
  | int n =>
    obtain ⟨notLong, fits⟩ := fits
    have same : Token.int n.toInt = .operand (.int n) := by rw [Token.int, Int16.ofInt_toInt]
    cases form with
    | oneByte =>
      obtain ⟨b, bytes, low, high, number⟩ := IntForm.ofByte_encode fits
      refine ⟨b, [], bytes, fun rest => ?_⟩
      rw [List.nil_append, Token.readAfter_ofByte low high, number, same]
    | twoBytes =>
      obtain ⟨b, c, bytes, low, high, number⟩ := IntForm.ofBytes_encode fits
      refine ⟨b, [c], bytes, fun rest => ?_⟩
      rw [List.singleton_append, Token.readAfter_ofBytes low high, number, same]
    | short =>
      refine ⟨28, _, rfl, fun rest => ?_⟩
      rw [Int16.ofInt_toInt]
      exact Reader.map_of (Cell.read_encode Cell.int16 n rest) _
    | long => exact absurd rfl notLong

theorem Operand.Fits.read {value : Operand} {form : IntForm} (fits : value.Fits form)
    (rest : List UInt8) : Token.read (value.encode form ++ rest) = .ok (.operand value, rest) := by
  obtain ⟨b, taken, bytes, read⟩ := Operand.exists_readAfter fits
  rw [bytes, List.cons_append, Token.read, Reader.bind_of (Cell.read_uint8 b _)]
  exact read rest

/-- A DICT has the same bytes for an integer. -/
theorem Operand.Fits.written {n : Int16} {form : IntForm} (fits : (Operand.int n).Fits form) :
    (Dict.Token.operand (.integer n.toInt32)).Written ((Operand.int n).encode form) := by
  have same : n.toInt32.toInt = n.toInt := Int16.toInt_toInt32 n
  have room : form.Fits n.toInt32.toInt := same ▸ fits.2
  rw [Operand.encode, ← same]
  exact Dict.written_integer room

/-! ### Many operands -/

/-- The bytes of operands, each written in its form. -/
def operandBytes (written : List (Operand × IntForm)) : List UInt8 :=
  written.flatMap fun w => w.1.encode w.2

variable {written : List (Operand × IntForm)}

theorem spells_operandBytes (fits : ∀ w ∈ written, w.1.Fits w.2) :
    Spells (written.map fun w => .operand w.1) (operandBytes written) := by
  induction written with
  | nil => exact .nil
  | cons w written ih =>
    obtain ⟨first, others⟩ := List.forall_mem_cons.mp fits
    obtain ⟨b, taken, bytes, read⟩ := Operand.exists_readAfter first
    rw [operandBytes, List.flatMap_cons, ← operandBytes, bytes]
    exact .cons (read _) (ih others)

/-- A charstring of operands is decoded into their loads. -/
theorem decode_operandBytes (fits : ∀ w ∈ written, w.1.Fits w.2) (sets : SubroutineSets) :
    decode sets (operandBytes written) = .ok (written.map fun w => w.1.load) := by
  have spelled : Spells ((written.map Prod.fst).map Token.operand ++ []) (operandBytes written) := by
    rw [List.append_nil, List.map_map]
    exact spells_operandBytes fits
  obtain ⟨left, none, decoded⟩ := @decodeBytes_operands sets (nestedRun sets nestingLimit) _ _ _ spelled
  cases none
  have ends : decodeNested sets nestingLimit (operandBytes written) {} =
      .ok (.exhausted, ({} : Progress).operands (written.map Prod.fst)) := by
    rw [decodeNested_eq, ← List.append_nil (operandBytes written), decoded, List.append_nil, decodeBytes]
  rw [decode, ends]
  show Except.ok (Progress.made _).reverse = _
  rw [Progress.made_operands, List.reverse_append, List.reverse_reverse, List.map_map]
  rfl

/-- **Operands come back from a charstring**, each in any form that has room for it: it is decoded into
their loads, and the reader of its tokens leaves just what comes after them. If they are integers, the
reader of a DICT takes the same bytes for the same numbers. -/
theorem decode_written (fits : ∀ w ∈ written, w.1.Fits w.2) :
    (∀ sets, decode sets (operandBytes written) = .ok (written.map fun w => w.1.load)) ∧
    (∀ more, Reader.times Token.read written.length (operandBytes written ++ more) =
      .ok (written.map fun w => .operand w.1, more)) ∧
    ((∀ w ∈ written, ∃ n, w.1 = .int n) →
      (∀ more, Reader.times Dict.Token.read written.length (operandBytes written ++ more) =
        .ok (written.map fun w => .operand (.integer w.1.load.value), more)) ∧
      Dict.tokens (operandBytes written) =
        .ok (written.map fun w => .operand (.integer w.1.load.value))) := by
  refine ⟨decode_operandBytes fits, Reader.times_flatMap fun w mem => (fits w mem).read, fun ints => ?_⟩
  have each (w) (mem : w ∈ written) :
      (Dict.Token.operand (.integer w.1.load.value)).Written (w.1.encode w.2) := by
    obtain ⟨n, int⟩ := ints w mem
    have fits := fits w mem
    rw [int] at fits ⊢
    exact fits.written
  have read (more) := Reader.times_flatMap (fun w mem => (each w mem).read) more
  refine ⟨read, ?_⟩
  have tokens := Dict.tokens_of_times (read [])
  rw [List.append_nil, Dict.tokens] at tokens
  rw [operandBytes, tokens]
  exact congrArg Except.ok (List.append_nil _)

/-- Integers at both ends of each form, one of which has the bytes of two operators in it, and after them a
number with 16 bits after the point, whose bytes are operators too. -/
theorem decode_written_edges :
    let sets : SubroutineSets := ⟨⟨.empty⟩, none⟩
    let bytes : List UInt8 :=
      [32, 246, 247, 0, 250, 255, 251, 0, 254, 255, 28, 128, 0, 28, 14, 11]
    let numbers : List Int32 := [-107, 107, 108, 1131, -108, -1131, -32768, 3595]
    decode sets (bytes ++ [255, 14, 11, 28, 29]) =
        .ok (numbers.map .int ++ [.withValue (.load .fixed) 0x0E0B1C1D]) ∧
      Dict.tokens bytes = .ok (numbers.map fun n => .operand (.integer n)) := by
  intro sets bytes numbers
  let written : List (Operand × IntForm) := [(.int (-107), .oneByte), (.int 107, .oneByte),
    (.int 108, .twoBytes), (.int 1131, .twoBytes), (.int (-108), .twoBytes), (.int (-1131), .twoBytes),
    (.int (-32768), .short), (.int 3595, .short)]
  have fits : ∀ w ∈ written, w.1.Fits w.2 := by decide
  have ints : ∀ w ∈ written, ∃ n, w.1 = .int n := by
    simp only [written, List.forall_mem_cons]
    exact ⟨⟨_, rfl⟩, ⟨_, rfl⟩, ⟨_, rfl⟩, ⟨_, rfl⟩, ⟨_, rfl⟩, ⟨_, rfl⟩, ⟨_, rfl⟩, ⟨_, rfl⟩, by simp⟩
  have fits' : ∀ w ∈ written ++ [(.fixed 0x0E0B1C1D, .short)], w.1.Fits w.2 := by decide
  exact ⟨(decode_written fits').1 sets, ((decode_written fits).2.2 ints).2⟩

end Charstring

end CompactFont
