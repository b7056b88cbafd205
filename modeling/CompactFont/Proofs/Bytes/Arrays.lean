import CompactFont.Proofs.Bytes.Exact

/-!
# Arrays and successive reads

An array of `n` cells can stand for `n` values that are read one after the other. The array is read as
one block, with the size of the block computed beforehand, and its values are taken from the block
later on: all of them in order, one after the other in an iteration, or one of them by its number,
without a check of its bytes or with a reader of its own. A cursor that reads the values one after the
other (`Cursor.readTimes`) knows nothing of the block. All of these give the same values
(**`Cursor.readTimes_packed`**).

What is known of an array that was read is that it has the bytes of all its cells (`Packed.Whole`).
From this it follows that no look at the bytes goes past their end: cell number `i` has the bytes from
`i` times the width on (`Packed.Whole.part_eq`), and that is where the cells before it end
(`Packed.getElem?_values`).
-/

namespace CompactFont

variable {α : Type}

/-! ### Bytes and cells -/

namespace Reader

theorem take_of_le {n : Nat} {bytes : List UInt8} (enough : n ≤ bytes.length) :
    take n bytes = .ok (bytes.take n, bytes.drop n) := if_pos (List.length_take_of_le enough)

theorem take_of_lt {n : Nat} {bytes : List UInt8} (short : bytes.length < n) :
    take n bytes = .error .endOfData :=
  if_neg (by rw [List.length_take]; omega)

end Reader

namespace Cell

theorem read_of_le (cell : Cell α) {bytes : List UInt8} (enough : cell.width ≤ bytes.length) :
    cell.read bytes = .ok (cell.decode (bytes.take cell.width), bytes.drop cell.width) :=
  Reader.map_of (Reader.take_of_le enough) cell.decode

theorem read_of_lt (cell : Cell α) {bytes : List UInt8} (short : bytes.length < cell.width) :
    cell.read bytes = .error .endOfData := by
  change (Reader.take cell.width bytes >>= fun p => Except.ok (cell.decode p.1, p.2)) = _
  rw [Reader.take_of_lt short]
  rfl

end Cell

/-! ### The values of a block -/

namespace Packed

theorem values_succ (cell : Cell α) {n : Nat} {bytes : List UInt8}
    (enough : cell.width ≤ bytes.length) :
    values cell (n + 1) bytes =
      cell.decode (bytes.take cell.width) :: values cell n (bytes.drop cell.width) := by
  rw [values, cell.read_of_le enough]

/-- If there are enough bytes, there are as many values as were asked for, and each is decoded from the
bytes that are as far on as the cells before it are wide. -/
theorem getElem?_values (cell : Cell α) {n : Nat} {bytes : List UInt8}
    (enough : n * cell.width ≤ bytes.length) :
    (values cell n bytes).length = n ∧ ∀ i < n, (values cell n bytes)[i]? =
      some (cell.decode ((bytes.drop (i * cell.width)).take cell.width)) := by
  induction n generalizing bytes with
  | zero => exact ⟨rfl, fun i hi => absurd hi (Nat.not_lt_zero i)⟩
  | succ n ih =>
    rw [Nat.succ_mul] at enough
    obtain ⟨length, each⟩ := @ih (bytes.drop cell.width) (by rw [List.length_drop]; omega)
    rw [values_succ cell (by omega)]
    refine ⟨by rw [List.length_cons, length], fun i hi => ?_⟩
    cases i with
    | zero => rw [Nat.zero_mul, List.drop_zero, List.getElem?_cons_zero]
    | succ i =>
      rw [List.getElem?_cons_succ, each i (by omega), List.drop_drop, Nat.succ_mul, Nat.add_comm]

/-- What comes after the cells does not matter to their values. -/
theorem values_take (cell : Cell α) {n : Nat} {bytes : List UInt8}
    (enough : n * cell.width ≤ bytes.length) :
    values cell n (bytes.take (n * cell.width)) = values cell n bytes := by
  induction n generalizing bytes with
  | zero => rfl
  | succ n ih =>
    have more : (n + 1) * cell.width = cell.width + n * cell.width := by rw [Nat.succ_mul, Nat.add_comm]
    rw [more] at enough ⊢
    have front : (bytes.take (cell.width + n * cell.width)).length = cell.width + n * cell.width :=
      List.length_take_of_le enough
    rw [values_succ cell (by omega), values_succ cell (by omega), List.take_take,
      Nat.min_eq_left (Nat.le_add_right _ _), List.drop_take, Nat.add_sub_cancel_left,
      ih (by rw [List.length_drop]; omega)]

/-! ### An array with all its bytes -/

/-- The array has the bytes of all its cells. -/
def Whole (items : Packed α) : Prop := items.bytes.length = items.count * items.cell.width

namespace Whole

variable {items : Packed α} (whole : items.Whole)

include whole

theorem length_toList : items.toList.length = items.count :=
  (getElem?_values items.cell (Nat.le_of_eq whole.symm)).1

theorem getElem?_toList {i : Nat} (inside : i < items.count) : items.toList[i]? =
    some (items.cell.decode ((items.bytes.drop (i * items.cell.width)).take items.cell.width)) :=
  (getElem?_values items.cell (Nat.le_of_eq whole.symm)).2 i inside

/-- From the start of a cell on there are enough bytes for it. -/
theorem width_le {i : Nat} (inside : i < items.count) :
    items.cell.width ≤ (items.bytes.drop (i * items.cell.width)).length := by
  have upTo : (i + 1) * items.cell.width ≤ items.count * items.cell.width :=
    Nat.mul_le_mul_right _ inside
  rw [Nat.succ_mul, ← whole] at upTo
  rw [List.length_drop]
  omega

/-- An iteration finds each value in the list, cell by cell. -/
theorem next?_eq {i : Nat} (inside : i < items.count) : items.next? i = items.toList[i]? := by
  rw [whole.getElem?_toList inside]
  exact if_pos ⟨inside, whole.width_le inside⟩

/-- What an iteration goes on with is the end of the list. -/
theorem iterate_eq {left : Nat} (few : left ≤ items.count) :
    items.iterate left = items.toList.drop (items.count - left) := by
  have length := whole.length_toList
  induction left with
  | zero => rw [iterate, Nat.sub_zero, ← length, List.drop_length]
  | succ left ih =>
    have inside : items.count - (left + 1) < items.toList.length := by omega
    have next : items.count - (left + 1) + 1 = items.count - left := by omega
    rw [iterate, whole.next?_eq (by omega), List.getElem?_eq_getElem inside,
      List.drop_eq_getElem_cons inside, next, ← ih (by omega)]

/-- The bytes of a cell are those that are as far on as the cells before it are wide. -/
theorem part_eq {i : Nat} (inside : i < items.count) :
    ∃ part, items.part i = .ok part ∧ part.bytes.length = items.cell.width ∧
      part.bytes = (items.bytes.drop (i * items.cell.width)).take items.cell.width := by
  have enough := whole.width_le inside
  refine ⟨_, Scope.window_eq_ok.mpr ⟨?starts, enough, rfl⟩, List.length_take_of_le enough, rfl⟩
  rw [List.length_drop] at enough
  show i * items.cell.width < items.bytes.length ∨ items.cell.width = 0
  omega

/-- The value of a cell is the same whether it is listed, decoded from its own bytes, or read from
them. -/
theorem value_eq {i : Nat} (inside : i < items.count) :
    ∃ value, items.toList[i]? = some value ∧ items.get? i = some value ∧ items.item i = .ok value := by
  obtain ⟨part, found, length, bytes⟩ := whole.part_eq inside
  refine ⟨items.cell.decode part.bytes, ?listed, ?decoded, ?read⟩
  case listed => rw [bytes, whole.getElem?_toList inside]
  case decoded => rw [get?, if_pos inside, found]
  case read =>
    have read := items.cell.read_of_le (Nat.le_of_eq length.symm)
    have start : (Cursor.start part).rest.bytes = part.bytes := List.drop_zero
    rw [← length, List.take_length, List.drop_length] at read
    rw [item, if_pos inside, found]
    show (Cursor.start part).read items.cell.read >>= _ = _
    rw [Cursor.read, start, read]
    rfl

end Whole

/-- There is no value where there is no cell. -/
theorem value_of_le {items : Packed α} {i : Nat} (past : items.count ≤ i) :
    items.get? i = none ∧ items.item i = .error .badIndex :=
  ⟨if_neg (Nat.not_lt.mpr past), if_neg (Nat.not_lt.mpr past)⟩

end Packed

/-! ### Cursors -/

namespace Cursor

/-- The cursor `n` bytes further on. -/
def skip (c : Cursor) (n : Nat) : Cursor := { c with pos := c.pos + n }

/-- Reads so many values, one after the other. -/
def readTimes (c : Cursor) (r : Reader α) : Nat → Except ReadFault (List α × Cursor)
  | 0 => .ok ([], c)
  | n + 1 => do
    let (value, c) ← c.read r
    let (values, c) ← c.readTimes r n
    return (value :: values, c)

theorem left_skip (c : Cursor) (n : Nat) : (c.skip n).left = c.left - n :=
  (Nat.sub_sub _ _ _).symm

theorem rest_skip (c : Cursor) (n : Nat) : (c.skip n).rest.bytes = c.rest.bytes.drop n :=
  List.drop_drop.symm

theorem skip_skip (c : Cursor) (m n : Nat) : (c.skip m).skip n = c.skip (m + n) :=
  congrArg (Cursor.mk c.scope) (Nat.add_assoc _ _ _)

variable {c : Cursor} (placed : c.pos ≤ c.scope.bytes.length)

include placed

theorem placed_skip {n : Nat} (enough : n ≤ c.left) :
    (c.skip n).pos ≤ (c.skip n).scope.bytes.length := by
  show c.pos + n ≤ c.scope.bytes.length
  rw [left] at enough
  omega

/-- A cursor moves over the bytes that a reader takes. -/
theorem read_of_drop {ε : Type} {r : ReaderOf ε α} {value : α} {n : Nat} (enough : n ≤ c.left)
    (h : r c.rest.bytes = .ok (value, c.rest.bytes.drop n)) : c.read r = .ok (value, c.skip n) := by
  have moved : c.scope.bytes.length - (c.rest.bytes.drop n).length = c.pos + n := by
    rw [List.length_drop, length_rest]
    rw [left] at enough ⊢
    omega
  rw [Cursor.read, h]
  exact congrArg (fun pos => Except.ok (value, Cursor.mk c.scope pos)) moved

/-- Values are read one after the other as long as there are bytes for them. -/
theorem readTimes_eq (cell : Cell α) (n : Nat) :
    c.readTimes cell.read n =
      if n * cell.width ≤ c.left then
        .ok (Packed.values cell n c.rest.bytes, c.skip (n * cell.width))
      else .error .endOfData := by
  induction n generalizing c with
  | zero => rw [Nat.zero_mul, if_pos (Nat.zero_le _)]; rfl
  | succ n ih =>
    rw [readTimes, Nat.succ_mul]
    by_cases first : cell.width ≤ c.left
    · have here := cell.read_of_le (Nat.le_trans first (Nat.le_of_eq c.length_rest.symm))
      have others := @ih (c.skip cell.width) (placed_skip placed first)
      rw [left_skip, rest_skip, skip_skip] at others
      rw [read_of_drop placed first here]
      show (c.skip cell.width).readTimes cell.read n >>= _ = _
      rw [others]
      by_cases enough : n * cell.width + cell.width ≤ c.left
      · rw [if_pos (by omega), if_pos enough,
          Packed.values_succ cell (Nat.le_trans first (Nat.le_of_eq c.length_rest.symm)),
          Nat.add_comm cell.width]
        rfl
      · rw [if_neg (by omega), if_neg enough]
        rfl
    · have fault := cell.read_of_lt (Nat.lt_of_le_of_lt (Nat.le_of_eq c.length_rest) (by omega))
      rw [Cursor.read, fault, if_neg (by omega)]
      rfl

/-- An array is read just where there are bytes for it, which are fewer than sizes can tell. -/
theorem read_packed_iff (sized : c.left < Packed.sizeLimit) {cell : Cell α} {n : Nat}
    {items : Packed α} {after : Cursor} :
    c.read (Packed.read cell n) = .ok (items, after) ↔ n * cell.width ≤ c.left ∧
      items = ⟨cell, n, c.rest.bytes.take (n * cell.width)⟩ ∧ after = c.skip (n * cell.width) := by
  have length := c.length_rest
  have block (enough : n * cell.width ≤ c.left) :
      c.read (Packed.read cell n) =
        .ok (⟨cell, n, c.rest.bytes.take (n * cell.width)⟩, c.skip (n * cell.width)) := by
    refine read_of_drop placed enough (Packed.read_eq_ok.mpr ⟨by omega, _, ?_, ?_, rfl⟩)
    · exact List.length_take_of_le (by omega)
    · exact (List.take_append_drop _ _).symm
  constructor
  · intro h
    obtain ⟨⟨found, rest⟩, read, -⟩ := bind_eq_ok.mp h
    obtain ⟨-, front, width, split, -⟩ := Packed.read_eq_ok.mp read
    have enough : n * cell.width ≤ c.left := by
      rw [split, List.length_append] at length
      omega
    rw [block enough] at h
    cases h
    exact ⟨enough, rfl, rfl⟩
  · rintro ⟨enough, rfl, rfl⟩
    exact block enough

/-- **An array holds what successive reads give.** At a cursor that is not past the end of its scope, with
fewer bytes left than sizes can tell, `n` cells are read as an array just if they can be read one after
the other, and the cursor moves over the same bytes. The array has `n` values and lists those of the
reads, and an iteration goes through just these; each of them is found by its number, and read by it,
and no other is. -/
theorem readTimes_packed (sized : c.left < Packed.sizeLimit) (cell : Cell α) (n : Nat) :
    (∀ values after, c.readTimes cell.read n = .ok (values, after) ↔
      ∃ items, c.read (Packed.read cell n) = .ok (items, after) ∧ items.toList = values) ∧
    ∀ items after, c.read (Packed.read cell n) = .ok (items, after) →
      items.count = n ∧ items.toList.length = n ∧ items.iterate n = items.toList ∧
      (∀ i < n, ∃ value, items.toList[i]? = some value ∧ items.get? i = some value ∧
        items.item i = .ok value) ∧
      ∀ i, n ≤ i → items.get? i = none ∧ items.item i = .error .badIndex := by
  have block : n * cell.width ≤ c.left → n * cell.width ≤ c.rest.bytes.length :=
    fun enough => Nat.le_trans enough (Nat.le_of_eq c.length_rest.symm)
  constructor
  · intro values after
    rw [readTimes_eq placed]
    constructor
    · intro h
      split at h
      · rename_i enough
        cases h
        exact ⟨_, (read_packed_iff placed sized).mpr ⟨enough, rfl, rfl⟩,
          Packed.values_take cell (block enough)⟩
      · cases h
    · rintro ⟨items, read, rfl⟩
      obtain ⟨enough, rfl, rfl⟩ := (read_packed_iff placed sized).mp read
      rw [if_pos enough, ← Packed.values_take cell (block enough)]
      rfl
  · intro items after read
    obtain ⟨enough, rfl, rfl⟩ := (read_packed_iff placed sized).mp read
    have whole : Packed.Whole ⟨cell, n, c.rest.bytes.take (n * cell.width)⟩ :=
      List.length_take_of_le (block enough)
    have iterated := whole.iterate_eq (Nat.le_refl n)
    rw [Nat.sub_self] at iterated
    exact ⟨rfl, whole.length_toList, iterated, fun i inside => whole.value_eq inside,
      fun i past => Packed.value_of_le past⟩

end Cursor

/-- Two pairs of a byte and a number of three bytes, within a scope. -/
theorem Cursor.readTimes_packed_pairs :
    let c : Cursor := ⟨⟨5, [9, 1, 0, 0, 7, 2, 1, 2, 3, 8]⟩, 1⟩
    let cell := Cell.uint8.pair Cell.uint24
    c.pos ≤ c.scope.bytes.length ∧ c.left < Packed.sizeLimit ∧
      c.readTimes cell.read 2 = .ok ([(1, 7), (2, 0x010203)], c.skip 8) ∧
      ∃ items, c.read (Packed.read cell 2) = .ok (items, c.skip 8) ∧
        items.toList = [(1, 7), (2, 0x010203)] ∧ items.iterate 2 = items.toList ∧
        items.get? 1 = some (2, 0x010203) ∧ items.item 1 = .ok (2, 0x010203) ∧
        items.get? 2 = none ∧ items.item 2 = .error .badIndex := by
  intro c cell
  have placed : c.pos ≤ c.scope.bytes.length := by decide
  have sized : c.left < Packed.sizeLimit := by decide
  have times : c.readTimes cell.read 2 = .ok ([(1, 7), (2, 0x010203)], c.skip 8) := rfl
  obtain ⟨same, values⟩ := readTimes_packed placed sized cell 2
  obtain ⟨items, read, listed⟩ := (same _ _).mp times
  obtain ⟨-, -, iterated, inside, past⟩ := values items _ read
  obtain ⟨value, second, found, item⟩ := inside 1 (by decide)
  rw [listed] at second
  cases second
  exact ⟨placed, sized, times, items, read, listed, iterated, found, item, past 2 (by decide)⟩

end CompactFont
