import CompactFont.Bytes.Cell

/-!
# Scopes and cursors

A scope is a window on the data: the bytes from some base on, for some length. A cursor is a
position within a scope. A cursor moves by running readers on the bytes after its position: a reader
that succeeds moves it over exactly the bytes that were taken, and one that fails leaves it where it
is, since there is no new cursor then.

A scope may start past the end of the data; it is empty then and keeps the base it was asked for.
-/

namespace CompactFont

/-- A window on the data. -/
structure Scope where
  /-- Where the window starts in the data. -/
  base : Nat
  /-- The bytes in the window. -/
  bytes : List UInt8
  deriving DecidableEq

namespace Scope

/-- The whole of the data. -/
def ofBytes (bytes : List UInt8) : Scope := ⟨0, bytes⟩

/-- The window that starts `n` bytes further on. -/
def offset (s : Scope) (n : Nat) : Scope := ⟨s.base + n, s.bytes.drop n⟩

/-- The window of `length` bytes that starts `start` bytes further on. It must start within the
scope, unless it is empty, and end there. -/
def window (s : Scope) (start length : Nat) : Except ReadFault Scope :=
  if start < s.bytes.length ∨ length = 0 then
    if length ≤ (s.bytes.drop start).length then
      .ok ⟨s.base + start, (s.bytes.drop start).take length⟩
    else .error .endOfData
  else .error .badOffset

end Scope

/-- A position within a scope. -/
structure Cursor where
  /-- The scope. -/
  scope : Scope
  /-- The number of bytes before the position. -/
  pos : Nat
  deriving DecidableEq

namespace Cursor

/-- The cursor at the start of a scope. -/
def start (s : Scope) : Cursor := ⟨s, 0⟩

/-- The scope of all that is after the cursor. -/
def rest (c : Cursor) : Scope := c.scope.offset c.pos

/-- The number of bytes after the cursor. -/
def left (c : Cursor) : Nat := c.scope.bytes.length - c.pos

/-- Some bytes are left. -/
def more (c : Cursor) : Bool := c.pos < c.scope.bytes.length

/-- Runs a reader on what is after the cursor and moves over the bytes that it takes. -/
def read {ε α : Type} (c : Cursor) (r : ReaderOf ε α) : Except ε (α × Cursor) := do
  let (value, after) ← r c.rest.bytes
  return (value, { c with pos := c.scope.bytes.length - after.length })

/-- The next `n` bytes as a scope of their own. -/
def subscope (c : Cursor) (n : Nat) : Except ReadFault (Scope × Cursor) := do
  let (bytes, after) ← c.read (Reader.take n)
  return (⟨c.scope.base + c.pos, bytes⟩, after)

/-- Goes to the scope that starts `n` bytes after the cursor. -/
def enter (c : Cursor) (n : Nat) : Cursor := start (c.rest.offset n)

/-- Goes to the scope of `length` bytes that starts `n` bytes after the cursor. -/
def enterWindow (c : Cursor) (n length : Nat) : Except ReadFault Cursor :=
  start <$> c.rest.window n length

end Cursor

end CompactFont
