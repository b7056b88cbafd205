/-!
# Big-endian numbers

All numbers of a font are stored with the most significant byte first. `ofBytes` reads any number
of bytes as a natural number and `toBytes` writes one with a given number of bytes; the two undo
each other (`ofBytes_toBytes`, `toBytes_ofBytes`).
-/

namespace CompactFont.BigEndian

/-- The number that bytes stand for, the first byte being the most significant. -/
def ofBytes (bytes : List UInt8) : Nat :=
  bytes.foldl (fun n b => n * 256 + b.toNat) 0

/-- The lowest `8 * width` bits of a number as `width` bytes, most significant first. -/
def toBytes : (width n : Nat) → List UInt8
  | 0, _ => []
  | width + 1, n => toBytes width (n / 256) ++ [UInt8.ofNat n]

@[simp] theorem length_toBytes (width n : Nat) : (toBytes width n).length = width := by
  induction width generalizing n with
  | zero => rfl
  | succ width ih => simp [toBytes, ih]

@[simp] theorem ofBytes_nil : ofBytes [] = 0 := rfl

theorem ofBytes_concat (bytes : List UInt8) (b : UInt8) :
    ofBytes (bytes ++ [b]) = ofBytes bytes * 256 + b.toNat := by
  simp [ofBytes]

/-- How many numbers there are of `width` bytes. -/
def capacity : (width : Nat) → Nat
  | 0 => 1
  | width + 1 => 256 * capacity width

/-- Writing and then reading keeps as much of a number as the width has room for. -/
theorem ofBytes_toBytes (width n : Nat) : ofBytes (toBytes width n) = n % capacity width := by
  induction width generalizing n with
  | zero => simp [toBytes, capacity, Nat.mod_one]
  | succ width ih =>
    have last : (UInt8.ofNat n).toNat = n % 256 := by simp
    rw [toBytes, ofBytes_concat, ih, last, capacity, Nat.mod_mul]
    omega

/-- A number that fits the width comes back whole. -/
theorem ofBytes_toBytes_of_lt {width n : Nat} (h : n < capacity width) :
    ofBytes (toBytes width n) = n := by
  rw [ofBytes_toBytes, Nat.mod_eq_of_lt h]

/-- There are as many numbers as strings of so many bytes. -/
theorem ofBytes_lt (bytes : List UInt8) : ofBytes bytes < capacity bytes.length := by
  suffices h : ∀ rev : List UInt8, ofBytes rev.reverse < capacity rev.length by
    simpa using h bytes.reverse
  intro rev
  induction rev with
  | nil => exact Nat.one_pos
  | cons b rev ih =>
    have hb := b.toNat_lt
    rw [List.reverse_cons, ofBytes_concat, List.length_cons, capacity]
    omega

/-- Reading `k` bytes and writing the number with `k` bytes gives the bytes back. -/
theorem toBytes_ofBytes (bytes : List UInt8) : toBytes bytes.length (ofBytes bytes) = bytes := by
  suffices h : ∀ rev : List UInt8, toBytes rev.reverse.length (ofBytes rev.reverse) = rev.reverse by
    simpa using h bytes.reverse
  intro rev
  induction rev with
  | nil => rfl
  | cons b rev ih =>
    have hb := b.toNat_lt
    rw [List.reverse_cons, ofBytes_concat, List.length_append, List.length_singleton, toBytes,
      show (ofBytes rev.reverse * 256 + b.toNat) / 256 = ofBytes rev.reverse by omega, ih]
    congr 2
    apply UInt8.toNat_inj.mp
    simp

end CompactFont.BigEndian
