import CompactFont.Fault
import CompactFont.Bytes.BigEndian

/-!
# Readers

A reader takes a value off the front of the bytes before it and hands on the bytes that are left.
The fault type is a parameter: plain values fail with a `ReadFault`, whole tables with a
`FontFault`. What a reader leaves is always the end of what it was given: this is `Consumes`, which
holds of every reader here and is kept by sequencing, so that a loop over readers ends when its
bytes do.

It is an assumption that an offset is the number which its bytes are in big-endian order
(`Reader.offset`): those of two to four bytes are left to a library that reads numbers off slices.
-/

namespace CompactFont

/-- A value read off the front of some bytes, or a fault. -/
abbrev ReaderOf (ε : Type) : Type → Type := StateT (List UInt8) (Except ε)

/-- A reader of a plain value. -/
abbrev Reader : Type → Type := ReaderOf ReadFault

/-- A reader of a table. -/
abbrev TableReader : Type → Type := ReaderOf FontFault

/-- A plain value can be read in the course of reading a table. -/
instance : MonadLift Reader TableReader where
  monadLift r bytes := (r bytes).mapError FontFault.read

namespace Reader

/-- The next `n` bytes. -/
def take (n : Nat) : Reader (List UInt8) := fun bytes =>
  let front := bytes.take n
  if front.length = n then .ok (front, bytes.drop n) else .error .endOfData

/-- The next `width` bytes as a number. -/
def number (width : Nat) : Reader Nat := BigEndian.ofBytes <$> take width

/-- An offset of one to four bytes. -/
def offset (size : UInt8) : Reader Nat :=
  if 1 ≤ size ∧ size ≤ 4 then number size.toNat else throw .badValue

/-- The byte has `n` as one of its two halves. -/
def hasNibble (n b : UInt8) : Bool := b >>> 4 == n || b &&& 0xF == n

/-- The bytes up to and including the first one that has the nibble `n`. -/
def untilNibble (n : UInt8) : Reader (List UInt8) := fun bytes =>
  take ((bytes.takeWhile fun b => !hasNibble n b).length + 1) bytes

/-- Fails with the given fault unless the condition holds. -/
def require (condition : Bool) (fault : ReadFault) : Reader Unit :=
  if condition then pure () else throw fault

/-- The bytes in front are taken whole, and what follows them is left. -/
theorem take_append {front rest : List UInt8} {n : Nat} (h : front.length = n) :
    take n (front ++ rest) = .ok (front, rest) := by
  subst h
  simp [take]

end Reader

/-- Whatever a reader leaves is the end of what it was given. -/
def Consumes {ε α : Type} (r : ReaderOf ε α) : Prop :=
  ∀ bytes value rest, r bytes = .ok (value, rest) → ∃ front, bytes = front ++ rest

namespace Consumes

variable {ε α β : Type}

/-- What is left is not longer than what was given. -/
theorem length_le {r : ReaderOf ε α} (h : Consumes r) {bytes rest : List UInt8} {value : α}
    (hr : r bytes = .ok (value, rest)) : rest.length ≤ bytes.length := by
  obtain ⟨front, rfl⟩ := h _ _ _ hr
  simp

theorem pure (value : α) : Consumes (Pure.pure value : ReaderOf ε α) := by
  intro bytes value' rest h
  cases h
  exact ⟨[], rfl⟩

theorem throw (fault : ε) : Consumes (MonadExcept.throw fault : ReaderOf ε α) := by
  intro bytes value rest h
  cases h

theorem bind {r : ReaderOf ε α} {f : α → ReaderOf ε β} (hr : Consumes r) (hf : ∀ a, Consumes (f a)) :
    Consumes (r >>= f) := by
  intro bytes value rest h
  change (r bytes >>= fun p => f p.1 p.2) = _ at h
  cases hb : r bytes with
  | error e => rw [hb] at h; cases h
  | ok p =>
    rw [hb] at h
    obtain ⟨front, hfront⟩ := hr _ _ _ hb
    obtain ⟨middle, hmiddle⟩ := hf p.1 _ _ _ h
    exact ⟨front ++ middle, by rw [hfront, hmiddle, List.append_assoc]⟩

theorem map {r : ReaderOf ε α} (hr : Consumes r) (f : α → β) : Consumes (f <$> r) :=
  bind hr fun a => pure (f a)

theorem take (n : Nat) : Consumes (Reader.take n) := by
  intro bytes value rest h
  simp only [Reader.take] at h
  split at h
  · cases h
    exact ⟨bytes.take n, (List.take_append_drop n bytes).symm⟩
  · cases h

theorem untilNibble (n : UInt8) : Consumes (Reader.untilNibble n) := fun _ => take _ _

end Consumes

end CompactFont
