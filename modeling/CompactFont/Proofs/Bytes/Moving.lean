import CompactFont.Proofs.Bytes.Exact
import CompactFont.Encoding
import CompactFont.FdSelect

/-!
# What can be done with a cursor

All tables are read by steps of a cursor: it reads a value, some bytes or an array, looks at what is
after it, or goes to another scope. Steps are data here (`ReadStep`). What a step does is put together
from moves (`Moving`): it looks at the cursor, moves it, and fails at some point, or it does not. A cursor
is left in any case, so that it can be told where it is after a step that fails (`Cursor.perform`).

Tables are read by readers, which hand on what is left of the bytes, or nothing at all where they fail
(`Cursor.read`). A step does with a cursor what the reader for it does; in particular it has not moved
the cursor yet where it fails (`Cursor.perform_eq_performRead`).
-/

namespace CompactFont

/-! ### Values of fixed size -/

/-- What takes a fixed number of bytes. -/
inductive FixedType where
  /-- An unsigned byte. -/
  | uint8
  /-- A signed byte. -/
  | int8
  /-- An unsigned number of two bytes. -/
  | uint16
  /-- A signed number of two bytes. -/
  | int16
  /-- An unsigned number of three bytes. -/
  | uint24
  /-- An unsigned number of four bytes. -/
  | uint32
  /-- A signed number of four bytes. -/
  | int32
  /-- Two values, one after the other. -/
  | pair (first second : FixedType)
  /-- A run of bytes. -/
  | byteRun
  /-- A run of SIDs, at most 256 of them. -/
  | shortRun
  /-- A run of SIDs, of any length. -/
  | longRun
  /-- A range of FDSelect. -/
  | fdRange
  /-- A further code of a glyph. -/
  | supplement

namespace FixedType

/-- The values of the type. -/
def Value : FixedType → Type
  | uint8 => UInt8
  | int8 => Int8
  | uint16 => UInt16
  | int16 => Int16
  | uint24 => BitVec 24
  | uint32 => UInt32
  | int32 => Int32
  | pair first second => first.Value × second.Value
  | byteRun => Run UInt8 UInt8
  | shortRun => Run UInt16 UInt8
  | longRun => Run UInt16 UInt16
  | fdRange => FdRange
  | supplement => Supplement

/-- How the values are read and written. -/
def cell : (type : FixedType) → Cell type.Value
  | uint8 => Cell.uint8
  | int8 => Cell.int8
  | uint16 => Cell.uint16
  | int16 => Cell.int16
  | uint24 => Cell.uint24
  | uint32 => Cell.uint32
  | int32 => Cell.int32
  | pair first second => first.cell.pair second.cell
  | byteRun => Run.bytes
  | shortRun => Run.short
  | longRun => Run.long
  | fdRange => FdRange.cell
  | supplement => Supplement.cell

end FixedType

/-! ### Steps -/

/-- What a cursor can be asked for. -/
inductive ReadStep where
  /-- The next value of a type. -/
  | value (type : FixedType)
  /-- The next offset, of so many bytes. -/
  | offset (size : UInt8)
  /-- The next `n` bytes. -/
  | slice (n : Nat)
  /-- The next `n` bytes as a scope. -/
  | subscope (n : Nat)
  /-- The bytes up to and including the first one that has the nibble. -/
  | untilNibble (nibble : UInt8)
  /-- The next `count` values of a type. -/
  | array (type : FixedType) (count : Nat)
  /-- The scope of all that is after the cursor. -/
  | rest
  /-- To go to the scope that starts `n` bytes after the cursor. -/
  | enter (n : Nat)
  /-- To go to the scope of `length` bytes that starts `n` bytes after the cursor. -/
  | enterWindow (n length : Nat)

/-- What comes of a step. -/
inductive Answer where
  /-- A value of a type. -/
  | value (type : FixedType) (value : type.Value)
  /-- An offset. -/
  | offset (n : Nat)
  /-- Bytes. -/
  | bytes (bytes : List UInt8)
  /-- A scope. -/
  | scope (scope : Scope)
  /-- Values of a type. -/
  | array (type : FixedType) (items : Packed type.Value)
  /-- The cursor is in another scope. -/
  | entered
  /-- The step failed. -/
  | fault (fault : ReadFault)

/-! ### Moves -/

/-- What is done with a cursor. There is a cursor afterwards in any case, also where it fails. -/
abbrev Moving : Type → Type := ExceptT ReadFault (StateM Cursor)

namespace Moving

/-- The next `n` bytes as a scope. The data ends too early where there is no such window. -/
def subscope (n : Nat) : Moving Scope := do
  let c ← get
  match c.scope.window c.pos n with
  | .ok scope => do
    set { c with pos := c.pos + n }
    return scope
  | .error _ => throw .endOfData

/-- The next `n` bytes. -/
def slice (n : Nat) : Moving (List UInt8) := Scope.bytes <$> subscope n

/-- Fails unless `n` bytes are left. -/
def require (n : Nat) : Moving Unit := do
  let c ← get
  if c.pos + n ≤ c.scope.bytes.length then return else throw .endOfData

/-- Moves over `n` bytes, whether there are as many or not. -/
def skip (n : Nat) : Moving (List UInt8) := do
  let c ← get
  set { c with pos := c.pos + n }
  return c.rest.bytes.take n

/-- The next value, whether there are bytes for it or not. Two values are read one after the other. -/
def unchecked : (type : FixedType) → Moving type.Value
  | .pair first second => do
    let a ← unchecked first
    let b ← unchecked second
    return (a, b)
  | type => type.cell.decode <$> skip type.cell.width

/-- The next value, if there are bytes for the whole of it. -/
def value (type : FixedType) : Moving type.Value := do
  require type.cell.width
  unchecked type

/-- The next offset. -/
def offset (size : UInt8) : Moving Nat :=
  if 1 ≤ size ∧ size ≤ 4 then BigEndian.ofBytes <$> slice size.toNat else throw .badValue

/-- The bytes up to and including the first one that has the nibble. -/
def untilNibble (nibble : UInt8) : Moving (List UInt8) := do
  let c ← get
  match c.rest.bytes.findIdx? (Reader.hasNibble nibble) with
  | some last => slice (last + 1)
  | none => throw .endOfData

/-- The next `count` values of a type. -/
def array (type : FixedType) (count : Nat) : Moving (Packed type.Value) :=
  if count * type.cell.width < Packed.sizeLimit then
    (⟨type.cell, count, ·⟩) <$> slice (count * type.cell.width)
  else throw .badValue

/-- To the scope of `length` bytes that starts `n` bytes after the cursor. -/
def enterWindow (n length : Nat) : Moving Unit := do
  let c ← get
  match c.rest.window n length with
  | .ok scope => set (Cursor.start scope)
  | .error fault => throw fault

/-- Carries out a step. -/
def step : ReadStep → Moving Answer
  | .value type => .value type <$> value type
  | .offset size => .offset <$> offset size
  | .slice n => .bytes <$> slice n
  | .subscope n => .scope <$> subscope n
  | .untilNibble nibble => .bytes <$> untilNibble nibble
  | .array type count => .array type <$> array type count
  | .rest => (fun c => .scope c.rest) <$> get
  | .enter n => (fun _ => .entered) <$> modify (·.enter n)
  | .enterWindow n length => (fun _ => .entered) <$> enterWindow n length

/-- What comes of it at a cursor, and where the cursor is then. -/
def outcome (m : Moving Answer) (c : Cursor) : Answer × Cursor :=
  match m c with
  | (.ok answer, after) => (answer, after)
  | (.error fault, after) => (.fault fault, after)

variable {α β : Type} {c : Cursor}

theorem outcome_map (answer : α → Answer) (m : Moving α) (c : Cursor) :
    (answer <$> m).outcome c =
      match m c with
      | (.ok a, after) => (answer a, after)
      | (.error fault, after) => (.fault fault, after) := by
  rw [← bind_pure_comp]
  simp only [outcome, bind, ExceptT.bind, ExceptT.mk, StateT.bind]
  rcases m c with ⟨fault | a, after⟩ <;> rfl

theorem bind_of_ok {m : Moving α} {f : α → Moving β} {a : α} {after : Cursor}
    (h : m c = (.ok a, after)) : (m >>= f) c = f a after := by
  simp only [bind, ExceptT.bind, ExceptT.mk, StateT.bind, h]
  rfl

theorem bind_of_error {m : Moving α} {f : α → Moving β} {fault : ReadFault} {after : Cursor}
    (h : m c = (.error fault, after)) : (m >>= f) c = (.error fault, after) := by
  simp only [bind, ExceptT.bind, ExceptT.mk, StateT.bind, h]
  rfl

end Moving

/-! ### Readers -/

/-- An array is read as one block. -/
theorem Packed.read_eq_map {α : Type} {cell : Cell α} {count : Nat} (small : count * cell.width < sizeLimit) :
    read cell count = (⟨cell, count, ·⟩) <$> Reader.take (count * cell.width) := by
  unfold read Reader.require
  rw [decide_eq_true small]
  rfl

/-- An array is not read if its size is no number of 64 bits. -/
theorem Packed.read_eq_throw {α : Type} {cell : Cell α} {count : Nat}
    (large : ¬count * cell.width < sizeLimit) : read cell count = throw .badValue := by
  unfold read Reader.require
  rw [decide_eq_false large]
  rfl

/-- The first byte with the nibble is where the bytes without it end. -/
theorem Reader.length_takeWhile_hasNibble (nibble : UInt8) (bytes : List UInt8) :
    (bytes.takeWhile fun b => !hasNibble nibble b).length =
      bytes.findIdx (hasNibble nibble) := by
  simp only [List.takeWhile_eq_take_findIdx_not, Bool.not_not, List.length_take]
  exact Nat.min_eq_left List.findIdx_le_length

/-! ### Steps of a cursor -/

namespace Cursor

variable {α β : Type} {c : Cursor}

/-- Carries out a step. -/
def perform (c : Cursor) (step : ReadStep) : Answer × Cursor := (Moving.step step).outcome c

/-- What a reader reads is answered, and the cursor stays where it is if the reader fails. -/
def keep (c : Cursor) (answer : α → Answer) : Except ReadFault (α × Cursor) → Answer × Cursor
  | .ok (a, after) => (answer a, after)
  | .error fault => (.fault fault, c)

/-- Carries out a step as tables are read: there is a new cursor only where the reader succeeds. -/
def performRead (c : Cursor) : ReadStep → Answer × Cursor
  | .value type => c.keep (.value type) (c.read type.cell.read)
  | .offset size => c.keep .offset (c.read (Reader.offset size))
  | .slice n => c.keep .bytes (c.read (Reader.take n))
  | .subscope n => c.keep .scope (c.subscope n)
  | .untilNibble nibble => c.keep .bytes (c.read (Reader.untilNibble nibble))
  | .array type count => c.keep (.array type) (c.read (Packed.read type.cell count))
  | .rest => (.scope c.rest, c)
  | .enter n => (.entered, c.enter n)
  | .enterWindow n length => c.keep (fun _ => .entered) (((), ·) <$> c.enterWindow n length)

/-- The place in the data of what is next. -/
def place (c : Cursor) : Nat := c.scope.base + c.pos

/-! ### Steps and readers -/

theorem read_take (c : Cursor) (n : Nat) :
    c.read (Reader.take n) = if n ≤ c.left then
      .ok (c.rest.bytes.take n, { c with pos := c.scope.bytes.length - (c.left - n) })
    else .error .endOfData := by
  have length := c.length_rest
  have after : (c.rest.bytes.drop n).length = c.left - n := by rw [List.length_drop, length]
  unfold Cursor.read Reader.take
  by_cases enough : n ≤ c.left
  · have taken : (c.rest.bytes.take n).length = n := by rw [List.length_take]; omega
    rw [if_pos enough, if_pos taken, ← after]
    rfl
  · have taken : (c.rest.bytes.take n).length ≠ n := by rw [List.length_take]; omega
    rw [if_neg enough, if_neg taken]
    rfl

/-- What is made of what a reader reads can be made of it when it is answered. -/
theorem keep_read_map (c : Cursor) (answer : β → Answer) (f : α → β) (r : Reader α) :
    c.keep answer (c.read (f <$> r)) = c.keep (answer ∘ f) (c.read r) := by
  have mapped : (f <$> r) c.rest.bytes = r c.rest.bytes >>= fun p => .ok (f p.1, p.2) := rfl
  unfold Cursor.read
  rw [mapped]
  cases r c.rest.bytes <;> rfl

theorem keep_subscope (c : Cursor) (n : Nat) :
    c.keep .scope (c.subscope n) =
      c.keep (fun bytes => .scope ⟨c.place, bytes⟩) (c.read (Reader.take n)) := by
  unfold Cursor.subscope
  cases c.read (Reader.take n) <;> rfl

/-- At a cursor it comes to what the reader comes to. The cursor moves over the bytes that the reader
takes, and it stays where it is if the reader fails. -/
def Runs {α : Type} (c : Cursor) (m : Moving α) (r : Reader α) : Prop :=
  ∀ answer : α → Answer, (answer <$> m).outcome c = c.keep answer (c.read r)

theorem Runs.map {m : Moving α} {r : Reader α} (h : c.Runs m r) (f : α → β) :
    c.Runs (f <$> m) (f <$> r) := by
  intro answer
  rw [keep_read_map, ← h, ← comp_map]

theorem runs_throw (c : Cursor) (fault : ReadFault) : c.Runs (throw fault : Moving α) (throw fault) :=
  fun _ => rfl

/-- A scope is read if there are bytes for all of it. -/
theorem subscope_eq (h : c.pos ≤ c.scope.bytes.length) (n : Nat) :
    Moving.subscope n c = if n ≤ c.left then
      (.ok ⟨c.place, c.rest.bytes.take n⟩, { c with pos := c.pos + n })
    else (.error .endOfData, c) := by
  have left : c.left = c.scope.bytes.length - c.pos := rfl
  have after : (c.scope.bytes.drop c.pos).length = c.left := List.length_drop
  change (match c.scope.window c.pos n with
    | .ok scope => (do set { c with pos := c.pos + n }; return scope : Moving Scope)
    | .error _ => throw ReadFault.endOfData) c = _
  unfold Scope.window
  rw [after]
  by_cases enough : n ≤ c.left
  · rw [if_pos (by omega), if_pos enough, if_pos enough]
    rfl
  · rw [if_neg enough, if_neg enough]
    split <;> rfl

/-- What takes `n` bytes, if there are as many, does what a reader of them does. -/
theorem runs_take {m : Moving α} {f : List UInt8 → α} {n : Nat} (h : c.pos ≤ c.scope.bytes.length)
    (moved : m c = if n ≤ c.left then (.ok (f (c.rest.bytes.take n)), { c with pos := c.pos + n })
      else (.error .endOfData, c)) : c.Runs m (f <$> Reader.take n) := by
  intro answer
  have left : c.left = c.scope.bytes.length - c.pos := rfl
  rw [keep_read_map, read_take, Moving.outcome_map, moved]
  by_cases enough : n ≤ c.left
  · have after : c.scope.bytes.length - (c.left - n) = c.pos + n := by omega
    simp only [if_pos enough, after, keep, Function.comp_apply]
  · simp only [if_neg enough, keep]

theorem runs_subscope (h : c.pos ≤ c.scope.bytes.length) (n : Nat) :
    c.Runs (Moving.subscope n) ((⟨c.place, ·⟩) <$> Reader.take n) :=
  runs_take h (subscope_eq h n)

theorem runs_slice (h : c.pos ≤ c.scope.bytes.length) (n : Nat) :
    c.Runs (Moving.slice n) (Reader.take n) := by
  have same : Scope.bytes <$> ((⟨c.place, ·⟩) <$> Reader.take n : Reader Scope) = Reader.take n := by
    rw [← comp_map]
    exact id_map _
  rw [← same]
  exact (runs_subscope h n).map _

/-- A value that is read without a check is read off its bytes, if they are there. -/
theorem unchecked_eq (type : FixedType) (c : Cursor) :
    Moving.unchecked type c =
      (.ok (type.cell.decode (c.rest.bytes.take type.cell.width)),
        { c with pos := c.pos + type.cell.width }) := by
  induction type generalizing c with
  | pair first second hfirst hsecond =>
    have front : (c.rest.bytes.take (first.cell.width + second.cell.width)).take first.cell.width =
        c.rest.bytes.take first.cell.width := by
      rw [List.take_take, Nat.min_eq_left (Nat.le_add_right _ _)]
    have back : (c.rest.bytes.take (first.cell.width + second.cell.width)).drop first.cell.width =
        (c.scope.bytes.drop (c.pos + first.cell.width)).take second.cell.width := by
      rw [List.drop_take, Nat.add_sub_cancel_left, ← List.drop_drop]
      rfl
    refine (Moving.bind_of_ok (hfirst c)).trans ((Moving.bind_of_ok (hsecond _)).trans ?_)
    change ((.ok (_, second.cell.decode ((c.scope.bytes.drop _).take _)), ⟨c.scope, _ + _ + _⟩) :
      Except ReadFault (first.Value × second.Value) × Cursor) =
        (.ok (first.cell.decode (List.take _ (List.take (_ + _) _)), second.cell.decode _), _)
    rw [front, ← back, Nat.add_assoc]
    rfl
  | _ => rfl

/-- A value is read if there are bytes for all of it. -/
theorem value_eq (h : c.pos ≤ c.scope.bytes.length) (type : FixedType) :
    Moving.value type c = if type.cell.width ≤ c.left then
      (.ok (type.cell.decode (c.rest.bytes.take type.cell.width)),
        { c with pos := c.pos + type.cell.width })
    else (.error .endOfData, c) := by
  have left : c.left = c.scope.bytes.length - c.pos := rfl
  have checked : Moving.require type.cell.width c =
      (if c.pos + type.cell.width ≤ c.scope.bytes.length then pure () else
        throw ReadFault.endOfData : Moving Unit) c := rfl
  by_cases enough : type.cell.width ≤ c.left
  · rw [if_pos (by omega)] at checked
    rw [if_pos enough]
    exact (Moving.bind_of_ok checked).trans (unchecked_eq type c)
  · rw [if_neg (by omega)] at checked
    rw [if_neg enough]
    exact Moving.bind_of_error checked

theorem runs_value (h : c.pos ≤ c.scope.bytes.length) (type : FixedType) :
    c.Runs (Moving.value type) type.cell.read :=
  runs_take h (value_eq h type)

theorem runs_untilNibble (h : c.pos ≤ c.scope.bytes.length) (nibble : UInt8) :
    c.Runs (Moving.untilNibble nibble) (Reader.untilNibble nibble) := by
  intro answer
  have length := c.length_rest
  have read : c.read (Reader.untilNibble nibble) =
      c.read (Reader.take (c.rest.bytes.findIdx (Reader.hasNibble nibble) + 1)) := by
    rw [← Reader.length_takeWhile_hasNibble]
    rfl
  have moved : Moving.untilNibble nibble c =
      (match c.rest.bytes.findIdx? (Reader.hasNibble nibble) with
        | some last => Moving.slice (last + 1)
        | none => throw ReadFault.endOfData) c := rfl
  rw [read]
  cases found : c.rest.bytes.findIdx? (Reader.hasNibble nibble) with
  | some last =>
    obtain ⟨-, first⟩ := List.findIdx?_eq_some_iff_findIdx_eq.mp found
    rw [found] at moved
    rw [first, Moving.outcome_map, moved, ← Moving.outcome_map]
    exact runs_slice h (last + 1) answer
  | none =>
    have past : c.rest.bytes.findIdx (Reader.hasNibble nibble) = c.rest.bytes.length :=
      List.findIdx_eq_length.mpr (List.findIdx?_eq_none_iff.mp found)
    rw [found] at moved
    rw [past, Moving.outcome_map, moved, read_take, if_neg (by omega)]
    rfl

theorem runs_offset (h : c.pos ≤ c.scope.bytes.length) (size : UInt8) :
    c.Runs (Moving.offset size) (Reader.offset size) := by
  unfold Moving.offset Reader.offset
  split
  · exact (runs_slice h _).map _
  · exact c.runs_throw _

theorem runs_array (h : c.pos ≤ c.scope.bytes.length) (type : FixedType) (count : Nat) :
    c.Runs (Moving.array type count) (Packed.read type.cell count) := by
  unfold Moving.array
  split
  · rename_i small
    rw [Packed.read_eq_map small]
    exact (runs_slice h _).map _
  · rename_i large
    rw [Packed.read_eq_throw large]
    exact c.runs_throw _

/-- Steps come to the same as the readers of tables. -/
theorem perform_eq_performRead (h : c.pos ≤ c.scope.bytes.length) (step : ReadStep) :
    c.perform step = c.performRead step := by
  cases step with
  | value type => exact runs_value h type _
  | offset size => exact runs_offset h size _
  | slice n => exact runs_slice h n _
  | subscope n =>
    rw [performRead, keep_subscope]
    exact (runs_subscope h n _).trans (keep_read_map ..)
  | untilNibble nibble => exact runs_untilNibble h nibble _
  | array type count => exact runs_array h type count _
  | rest => rfl
  | enter n => rfl
  | enterWindow n length =>
    change Moving.outcome ((fun _ => .entered) <$> Moving.enterWindow n length) c =
      c.keep (fun _ => .entered) (((), ·) <$> (start <$> c.rest.window n length))
    have entered : Moving.enterWindow n length c =
        (match c.rest.window n length with
          | .ok scope => set (start scope)
          | .error fault => throw fault : Moving Unit) c := rfl
    rw [Moving.outcome_map, entered]
    cases c.rest.window n length <;> rfl

end Cursor

end CompactFont
