import CompactFont.Proofs.Bytes.Moving

/-!
# What a cursor does, step by step

What a step of a cursor does is stated by the data as a whole, not by the scope at hand. A scope is a part
of the data that starts at its base (`Cursor.Within`). What a step reads are the bytes of the data at the
cursor's place, as many as it moves over, and what it answers is written with just those bytes; where
it fails there is a reason, and the cursor is as it was (`Cursor.Obeys`).

Any sequence of steps can be carried out, whichever of them fail (`Cursor.performAll`). All steps obey
this whatever comes before them (`Cursor.obeys_performAll`): within a scope by `Cursor.Within.perform`, and
every step leaves the cursor within a scope again (`Cursor.Obeys.within`).
-/

namespace CompactFont

/-! ### Values of fixed size -/

/-- The bytes that the cell is read off are the ones that its value is written with. -/
def Cell.Total {α : Type} (cell : Cell α) : Prop :=
  ∀ bytes, bytes.length = cell.width → cell.encode (cell.decode bytes) = bytes

namespace Cell

variable {α β : Type}

theorem total_ofNumber {width : Nat} {ofNat : Nat → α} {toNat : α → Nat}
    {toNat_lt : ∀ a, toNat a < BigEndian.capacity width} {ofNat_toNat : ∀ a, ofNat (toNat a) = a}
    (toNat_ofNat : ∀ n, n < BigEndian.capacity width → toNat (ofNat n) = n) :
    (ofNumber width ofNat toNat toNat_lt ofNat_toNat).Total := by
  intro bytes length
  change bytes.length = width at length
  subst length
  change BigEndian.toBytes bytes.length (toNat (ofNat (BigEndian.ofBytes bytes))) = bytes
  rw [toNat_ofNat _ (BigEndian.ofBytes_lt bytes), BigEndian.toBytes_ofBytes]

theorem Total.pair {f : Cell α} {g : Cell β} (hf : f.Total) (hg : g.Total) : (f.pair g).Total := by
  intro bytes length
  change bytes.length = f.width + g.width at length
  change f.encode (f.decode (bytes.take f.width)) ++ g.encode (g.decode (bytes.drop f.width)) = bytes
  rw [hf _ (by rw [List.length_take]; omega), hg _ (by rw [List.length_drop]; omega),
    List.take_append_drop]

theorem Total.rename {f : Cell α} {name : α → β} {value : β → α}
    {name_value : ∀ b, name (value b) = b} (h : f.Total) (value_name : ∀ a, value (name a) = a) :
    (f.rename name value name_value).Total := by
  intro bytes length
  change f.encode (value (name (f.decode bytes))) = bytes
  rw [value_name, h bytes length]

end Cell

/-- Numbers are as large as their bytes have room for, and all the other types are made up of them. -/
theorem FixedType.total_cell (type : FixedType) : type.cell.Total := by
  have uint8 : Cell.uint8.Total := Cell.total_ofNumber fun n h => UInt8.toNat_ofNat_of_lt' h
  have int8 : Cell.int8.Total := Cell.total_ofNumber fun n h => UInt8.toNat_ofNat_of_lt' h
  have uint16 : Cell.uint16.Total := Cell.total_ofNumber fun n h => UInt16.toNat_ofNat_of_lt' h
  have int16 : Cell.int16.Total := Cell.total_ofNumber fun n h => UInt16.toNat_ofNat_of_lt' h
  have uint24 : Cell.uint24.Total := Cell.total_ofNumber fun n h => Nat.mod_eq_of_lt h
  have uint32 : Cell.uint32.Total := Cell.total_ofNumber fun n h => UInt32.toNat_ofNat_of_lt' h
  have int32 : Cell.int32.Total := Cell.total_ofNumber fun n h => UInt32.toNat_ofNat_of_lt' h
  induction type with
  | uint8 => exact uint8
  | int8 => exact int8
  | uint16 => exact uint16
  | int16 => exact int16
  | uint24 => exact uint24
  | uint32 => exact uint32
  | int32 => exact int32
  | pair first second hfirst hsecond => exact hfirst.pair hsecond
  | byteRun => exact (uint8.pair uint8).rename fun _ => rfl
  | shortRun => exact (uint16.pair uint8).rename fun _ => rfl
  | longRun => exact (uint16.pair uint16).rename fun _ => rfl
  | fdRange => exact (uint16.pair uint8).rename fun _ => rfl
  | supplement => exact (uint8.pair uint16).rename fun _ => rfl

/-! ### What steps should do -/

/-- The bytes that a step reads, at some place of the data, and what it answers for them. -/
inductive ReadStep.Reads (place : Nat) : ReadStep → List UInt8 → Answer → Prop where
  /-- The value is read off the bytes with which it is written. -/
  | value (type : FixedType) (v : type.Value) :
      Reads place (.value type) (type.cell.encode v) (.value type v)
  /-- An offset is a number of one to four bytes. -/
  | offset {size : UInt8} {bytes : List UInt8} (least : 1 ≤ size) (most : size ≤ 4)
      (length : bytes.length = size.toNat) :
      Reads place (.offset size) bytes (.offset (BigEndian.ofBytes bytes))
  /-- Bytes are read as they are. -/
  | slice (bytes : List UInt8) : Reads place (.slice bytes.length) bytes (.bytes bytes)
  /-- The base of a scope is the place at which it is read. -/
  | subscope (bytes : List UInt8) :
      Reads place (.subscope bytes.length) bytes (.scope ⟨place, bytes⟩)
  /-- Only the last byte has the nibble. -/
  | untilNibble {nibble last : UInt8} {before : List UInt8}
      (none : ∀ b ∈ before, Reader.hasNibble nibble b = false)
      (ends : Reader.hasNibble nibble last = true) :
      Reads place (.untilNibble nibble) (before ++ [last]) (.bytes (before ++ [last]))
  /-- An array has the bytes of all its values, and its size is a number of 64 bits. -/
  | array {type : FixedType} {count : Nat} {bytes : List UInt8}
      (small : count * type.cell.width < Packed.sizeLimit)
      (length : bytes.length = count * type.cell.width) :
      Reads place (.array type count) bytes (.array type ⟨type.cell, count, bytes⟩)

/-- Why a step fails where `left` is what is left to be read. -/
inductive ReadStep.Fails (left : List UInt8) : ReadStep → ReadFault → Prop where
  /-- There are too few bytes for the value. -/
  | value {type : FixedType} (short : left.length < type.cell.width) :
      Fails left (.value type) .endOfData
  /-- Offsets are not of this size. -/
  | offsetSize {size : UInt8} (wrong : size < 1 ∨ 4 < size) : Fails left (.offset size) .badValue
  /-- There are too few bytes for the offset. -/
  | offset {size : UInt8} (least : 1 ≤ size) (most : size ≤ 4) (short : left.length < size.toNat) :
      Fails left (.offset size) .endOfData
  /-- There are too few bytes. -/
  | slice {n : Nat} (short : left.length < n) : Fails left (.slice n) .endOfData
  /-- There are too few bytes for the scope. -/
  | subscope {n : Nat} (short : left.length < n) : Fails left (.subscope n) .endOfData
  /-- No byte has the nibble. -/
  | untilNibble {nibble : UInt8} (none : ∀ b ∈ left, Reader.hasNibble nibble b = false) :
      Fails left (.untilNibble nibble) .endOfData
  /-- The size of the array is no number of 64 bits. -/
  | arraySize {type : FixedType} {count : Nat}
      (large : Packed.sizeLimit ≤ count * type.cell.width) : Fails left (.array type count) .badValue
  /-- There are too few bytes for the array. -/
  | array {type : FixedType} {count : Nat} (small : count * type.cell.width < Packed.sizeLimit)
      (short : left.length < count * type.cell.width) : Fails left (.array type count) .endOfData
  /-- The scope starts where no byte is left. -/
  | windowStart {n length : Nat} (some : length ≠ 0) (beyond : left.length ≤ n) :
      Fails left (.enterWindow n length) .badOffset
  /-- The scope ends after all that is left. -/
  | windowEnd {n length : Nat} (some : length ≠ 0) (within : n < left.length)
      (short : left.length < n + length) : Fails left (.enterWindow n length) .endOfData

namespace Cursor

variable {α β : Type} {root : List UInt8} {c : Cursor} {step : ReadStep}

/-- Carries out steps, one after the other, whatever comes of them. -/
def performAll (c : Cursor) (steps : List ReadStep) : Cursor :=
  steps.foldl (fun c step => (c.perform step).2) c

/-- The scope is the part of the data that starts at its base, and the cursor is within it. -/
structure Within (root : List UInt8) (c : Cursor) : Prop where
  /-- The cursor is not past the end of the scope. -/
  pos_le : c.pos ≤ c.scope.bytes.length
  /-- The scope has the bytes that the data has there. -/
  bytes_eq : c.scope.bytes = (root.drop c.scope.base).take c.scope.bytes.length

/-- What a step does at a cursor within `root`. -/
inductive Obeys (root : List UInt8) (c : Cursor) : ReadStep → Answer × Cursor → Prop where
  /-- It reads the bytes at the place of the cursor and moves over them. -/
  | reads {step : ReadStep} {bytes : List UInt8} {answer : Answer}
      (reads : step.Reads c.place bytes answer)
      (here : bytes = (root.drop c.place).take bytes.length)
      (room : c.pos + bytes.length ≤ c.scope.bytes.length) :
      Obeys root c step (answer, { c with pos := c.pos + bytes.length })
  /-- It answers with all that is after the cursor. -/
  | rest : Obeys root c .rest (.scope ⟨c.place, (root.drop c.place).take c.left⟩, c)
  /-- It goes to a scope that ends where the one before does. -/
  | enter (n : Nat) : Obeys root c (.enter n)
      (.entered, start ⟨c.place + n, (root.drop (c.place + n)).take (c.left - n)⟩)
  /-- It goes to a scope within the one before, or to an empty one. -/
  | enterWindow {n length : Nat} (room : length = 0 ∨ n + length ≤ c.left) :
      Obeys root c (.enterWindow n length)
        (.entered, start ⟨c.place + n, (root.drop (c.place + n)).take length⟩)
  /-- It fails for a reason and leaves the cursor as it is. -/
  | fails {step : ReadStep} {fault : ReadFault}
      (reason : step.Fails ((root.drop c.place).take c.left) fault) :
      Obeys root c step (.fault fault, c)

theorem within_start (root : List UInt8) : (start (.ofBytes root)).Within root :=
  ⟨Nat.zero_le _, List.take_length.symm⟩

namespace Within

/-- What is after the cursor is what the data has there. -/
theorem rest_bytes (h : c.Within root) : c.rest.bytes = (root.drop c.place).take c.left := by
  change c.scope.bytes.drop c.pos = _
  rw [h.bytes_eq, List.drop_take, List.drop_drop]
  rfl

/-- A scope that starts past the end of the data is empty. -/
theorem nil_of_past (h : c.Within root) (past : root.length ≤ c.scope.base) :
    c.scope.bytes = [] := by
  rw [h.bytes_eq, List.drop_of_length_le past, List.take_nil]

end Within

/-! ### What steps do -/

/-- A step that takes `n` bytes, if there are as many. -/
theorem Within.obeys_take (h : c.Within root) {n : Nat} {answer : List UInt8 → Answer}
    (reads : ∀ bytes, bytes = c.rest.bytes.take n → bytes.length = n →
      step.Reads c.place bytes (answer bytes))
    (fails : c.rest.bytes.length < n → step.Fails c.rest.bytes .endOfData) :
    c.Obeys root step (c.keep answer (c.read (Reader.take n))) := by
  have pos := h.pos_le
  have length := c.length_rest
  have left : c.left = c.scope.bytes.length - c.pos := rfl
  rw [read_take]
  split
  · rename_i enough
    have taken : (c.rest.bytes.take n).length = n := by rw [List.length_take]; omega
    have here : c.rest.bytes.take n = (root.drop c.place).take (c.rest.bytes.take n).length := by
      rw [taken, h.rest_bytes, List.take_take, Nat.min_eq_left enough]
    have moved := Obeys.reads (reads _ rfl taken) here (by omega)
    rw [taken] at moved
    rw [show c.scope.bytes.length - (c.left - n) = c.pos + n by omega]
    exact moved
  · refine .fails ?_
    rw [← h.rest_bytes]
    exact fails (by omega)

/-- The bytes up to a nibble end with the only one that has it, or there is none that has it. -/
theorem Within.obeys_untilNibble (h : c.Within root) (nibble : UInt8) :
    c.Obeys root (.untilNibble nibble) (c.performRead (.untilNibble nibble)) := by
  have split := c.rest.bytes.takeWhile_append_dropWhile (p := fun b => !Reader.hasNibble nibble b)
  have none : ∀ b ∈ c.rest.bytes.takeWhile fun b => !Reader.hasNibble nibble b,
      Reader.hasNibble nibble b = false := fun b hb => by
    simpa using List.all_eq_true.mp List.all_takeWhile b hb
  have ends := c.rest.bytes.head?_dropWhile_not fun b => !Reader.hasNibble nibble b
  change c.Obeys root _ (c.keep .bytes (c.read (Reader.take
    ((c.rest.bytes.takeWhile fun b => !Reader.hasNibble nibble b).length + 1))))
  generalize c.rest.bytes.takeWhile (fun b => !Reader.hasNibble nibble b) = before at split none ⊢
  generalize c.rest.bytes.dropWhile (fun b => !Reader.hasNibble nibble b) = after at split ends
  refine h.obeys_take (fun bytes taken length => ?_) fun short => ?_
  · cases after with
    | nil =>
      rw [taken, ← split, List.append_nil, List.length_take] at length
      omega
    | cons last after =>
      rw [← split, List.take_length_add_append] at taken
      subst taken
      exact .untilNibble none (by simpa using ends)
  · cases after with
    | nil =>
      rw [← split, List.append_nil]
      exact .untilNibble none
    | cons last after =>
      rw [← split, List.length_append, List.length_cons] at short
      omega

theorem Within.obeys_array (h : c.Within root) (type : FixedType) (count : Nat) :
    c.Obeys root (.array type count) (c.performRead (.array type count)) := by
  change c.Obeys root _ (c.keep _ (c.read (Packed.read type.cell count)))
  by_cases small : count * type.cell.width < Packed.sizeLimit
  · rw [Packed.read_eq_map small, keep_read_map]
    exact h.obeys_take (fun bytes _ length => .array small length) fun short => .array small short
  · rw [Packed.read_eq_throw small]
    exact .fails (.arraySize (Nat.le_of_not_lt small))

/-- The scope that starts `n` bytes after the cursor is a part of the data. -/
theorem Within.offset_rest (h : c.Within root) (n : Nat) :
    c.rest.offset n = ⟨c.place + n, (root.drop (c.place + n)).take (c.left - n)⟩ := by
  change (⟨c.place + n, c.rest.bytes.drop n⟩ : Scope) = _
  rw [h.rest_bytes, List.drop_take, List.drop_drop]

/-- A scope is entered if it is empty, or ends where the one before does or earlier. -/
theorem Within.obeys_enterWindow (h : c.Within root) (n length : Nat) :
    c.Obeys root (.enterWindow n length) (c.performRead (.enterWindow n length)) := by
  have left := c.length_rest
  have after : (c.rest.bytes.drop n).length = c.left - n := by rw [List.length_drop, left]
  have same : c.rest.bytes.drop n = (root.drop (c.place + n)).take (c.left - n) :=
    congrArg Scope.bytes (h.offset_rest n)
  change c.Obeys root _ (c.keep (fun _ => .entered) (((), ·) <$> (start <$> c.rest.window n length)))
  unfold Scope.window
  split
  · rename_i starts
    split
    · rename_i ends
      rw [after] at ends
      rw [same, List.take_take, Nat.min_eq_left ends]
      exact .enterWindow (by omega)
    · rename_i ends
      refine .fails ?_
      rw [← h.rest_bytes]
      exact .windowEnd (by omega) (by omega) (by omega)
  · rename_i starts
    refine .fails ?_
    rw [← h.rest_bytes]
    exact .windowStart (fun none => starts (.inr none)) (Nat.le_of_not_lt fun h => starts (.inl h))

/-- The steps are obeyed as tables are read. -/
theorem Within.performRead (h : c.Within root) (step : ReadStep) :
    c.Obeys root step (c.performRead step) := by
  cases step with
  | value type =>
    change c.Obeys root _ (c.keep _ (c.read (type.cell.decode <$> Reader.take type.cell.width)))
    rw [keep_read_map]
    refine h.obeys_take (fun bytes _ length => ?_) fun short => .value short
    have written : ReadStep.Reads c.place _ _ _ := .value type (type.cell.decode bytes)
    rw [type.total_cell bytes length] at written
    exact written
  | offset size =>
    change c.Obeys root _ (c.keep .offset (c.read (Reader.offset size)))
    unfold Reader.offset
    split
    · rename_i right
      rw [Reader.number, keep_read_map]
      exact h.obeys_take (fun bytes _ length => .offset right.1 right.2 length)
        fun short => .offset right.1 right.2 short
    · rename_i wrong
      refine .fails (.offsetSize ?_)
      rw [← UInt8.not_le, ← UInt8.not_le]
      exact Decidable.not_and_iff_not_or_not.mp wrong
  | slice n =>
    refine h.obeys_take (fun bytes _ length => ?_) fun short => .slice short
    subst length
    exact .slice bytes
  | subscope n =>
    change c.Obeys root _ (c.keep .scope (c.subscope n))
    rw [keep_subscope]
    refine h.obeys_take (fun bytes _ length => ?_) fun short => .subscope short
    subst length
    exact .subscope bytes
  | untilNibble nibble => exact h.obeys_untilNibble nibble
  | array type count => exact h.obeys_array type count
  | rest =>
    have all : c.rest = ⟨c.place, (root.drop c.place).take c.left⟩ := by
      rw [← h.rest_bytes]
      rfl
    change c.Obeys root _ (.scope c.rest, c)
    rw [all]
    exact .rest
  | enter n =>
    change c.Obeys root _ (.entered, start (c.rest.offset n))
    rw [h.offset_rest]
    exact .enter n
  | enterWindow n length => exact h.obeys_enterWindow n length

/-- **A cursor within a scope obeys all steps.** -/
theorem Within.perform (h : c.Within root) (step : ReadStep) :
    c.Obeys root step (c.perform step) := by
  rw [perform_eq_performRead h.pos_le]
  exact h.performRead step

/-! ### Cursors within scopes -/

/-- A cursor at the start of a part of the data is within it. -/
theorem within_start_take (root : List UInt8) (base n : Nat) :
    (start ⟨base, (root.drop base).take n⟩).Within root :=
  ⟨Nat.zero_le _, by simp [start]⟩

/-- A step that is obeyed leaves the cursor within a scope. -/
theorem Obeys.within {result : Answer × Cursor} (obeys : c.Obeys root step result)
    (h : c.Within root) : result.2.Within root := by
  cases obeys with
  | reads reads here room => exact ⟨room, h.bytes_eq⟩
  | rest => exact h
  | enter n => exact within_start_take root _ _
  | enterWindow room => exact within_start_take root _ _
  | fails reason => exact h

theorem Within.performAll (h : c.Within root) (steps : List ReadStep) :
    (c.performAll steps).Within root := by
  induction steps generalizing c with
  | nil => exact h
  | cons step steps ih => exact ih ((h.perform step).within h)

/-- **The discipline of cursors**: after any steps on any data, the cursor is within a scope that is a
part of the data, which is empty if it starts past the end, and the next step is obeyed; it comes to what
the readers of tables come to. -/
theorem obeys_performAll (root : List UInt8) (steps : List ReadStep) (step : ReadStep) :
    let c := (start (.ofBytes root)).performAll steps
    c.Within root ∧ (root.length ≤ c.scope.base → c.scope.bytes = []) ∧
      c.Obeys root step (c.perform step) ∧ c.perform step = c.performRead step := by
  have h := (within_start root).performAll steps
  exact ⟨h, h.nil_of_past, h.perform step, perform_eq_performRead h.pos_le step⟩

/-- An empty scope can be entered wherever it starts, and has the base that was asked for. -/
example : ((start (.ofBytes [1, 2, 3])).perform (.enterWindow 99 0)).2 = start ⟨99, []⟩ := rfl

end Cursor

end CompactFont
