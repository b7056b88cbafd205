import CompactFont.Bytes.Cell

/-!
# Forms of integers

The integers among operators are written in one of four forms. The nearer an integer is to zero,
the more forms have room for it. The first byte tells the form, and in the forms of one and of two
bytes it is a part of the integer as well: no operator has a byte from 32 on.

`ofByte` and `ofBytes` give the integers in these two forms, and `encode` writes an integer in any
form. What is written in one of the two comes back (`ofByte_encode`, `ofBytes_encode`).
-/

namespace CompactFont

/-- How an integer is written. -/
inductive IntForm where
  /-- One byte, from 32 to 246. -/
  | oneByte
  /-- Two bytes, the first from 247 to 250 above zero and from 251 to 254 below. -/
  | twoBytes
  /-- The byte 28 and two bytes. -/
  | short
  /-- The byte 29 and four bytes. -/
  | long
  deriving DecidableEq

namespace IntForm

/-- The integer that one byte stands for. -/
def ofByte (b : UInt8) : Int := b.toNat - 139

/-- The integer that two bytes stand for. -/
def ofBytes (b c : UInt8) : Int :=
  if b ≤ 250 then (b.toNat - 247) * 256 + c.toNat + 108 else -((b.toNat - 251) * 256) - c.toNat - 108

/-- The integers that a form has room for. -/
def Fits : IntForm → Int → Prop
  | .oneByte, n => -107 ≤ n ∧ n ≤ 107
  | .twoBytes, n => 108 ≤ n.natAbs ∧ n.natAbs ≤ 1131
  | .short, n => -32768 ≤ n ∧ n ≤ 32767
  | .long, n => -2147483648 ≤ n ∧ n ≤ 2147483647

instance : (form : IntForm) → (n : Int) → Decidable (form.Fits n)
  | .oneByte, _ | .twoBytes, _ | .short, _ | .long, _ => inferInstanceAs (Decidable (_ ∧ _))

/-- The least first byte of the integers in two bytes that have the sign of `n`. -/
def lead (n : Int) : Nat := if 0 < n then 247 else 251

/-- An integer in a form that has room for it. -/
def encode : IntForm → Int → List UInt8
  | .oneByte, n => [UInt8.ofNat (n + 139).toNat]
  | .twoBytes, n =>
    let excess := n.natAbs - 108
    [UInt8.ofNat (lead n + excess / 256), UInt8.ofNat excess]
  | .short, n => 28 :: Cell.int16.encode (Int16.ofInt n)
  | .long, n => 29 :: Cell.int32.encode (Int32.ofInt n)

/-- An integer in one byte is one of the bytes for such integers, and comes back from it. -/
theorem ofByte_encode {n : Int} (h : oneByte.Fits n) :
    ∃ b : UInt8, encode .oneByte n = [b] ∧ 32 ≤ b ∧ b ≤ 246 ∧ ofByte b = n := by
  have value : (UInt8.ofNat (n + 139).toNat).toNat = (n + 139).toNat :=
    UInt8.toNat_ofNat_of_lt (by change _ < 256; have := h.2; omega)
  have low := h.1
  have high := h.2
  refine ⟨_, rfl, ?_, ?_, ?_⟩
  · rw [UInt8.le_iff_toNat_le, value]; change 32 ≤ _; omega
  · rw [UInt8.le_iff_toNat_le, value]; change _ ≤ 246; omega
  · rw [ofByte, value]; omega

/-- An integer in two bytes starts with one of the bytes for such integers, and comes back. -/
theorem ofBytes_encode {n : Int} (h : twoBytes.Fits n) :
    ∃ b c : UInt8, encode .twoBytes n = [b, c] ∧ 247 ≤ b ∧ b ≤ 254 ∧ ofBytes b c = n := by
  have low := h.1
  have high := h.2
  have sign : 0 < n ∧ lead n = 247 ∨ n ≤ 0 ∧ lead n = 251 := by unfold lead; split <;> omega
  have first :
      (UInt8.ofNat (lead n + (n.natAbs - 108) / 256)).toNat = lead n + (n.natAbs - 108) / 256 :=
    UInt8.toNat_ofNat_of_lt (by change _ < 256; omega)
  have second : (UInt8.ofNat (n.natAbs - 108)).toNat = (n.natAbs - 108) % 256 := by simp
  refine ⟨_, _, rfl, ?_, ?_, ?_⟩
  · rw [UInt8.le_iff_toNat_le, first]; change 247 ≤ _; omega
  · rw [UInt8.le_iff_toNat_le, first]; change _ ≤ 254; omega
  · simp only [ofBytes, UInt8.le_iff_toNat_le, first, second, UInt8.reduceToNat]
    split <;> omega

end IntForm

end CompactFont
