import CompactFont.Charstring.Compaction

/-!
# Packed integers

A load can hold two integers of 16 bits or four of 8 bits in its one value. Here is what survives
that: integers of the size in question come back as they were, with their signs
(`unpackShorts_packShorts`, `unpackBytes_packBytes`), and so do the integers of a whole run that was
collected for one load (`packedOperands_of_packed`).
-/

namespace CompactFont.Charstring

namespace Narrow

/-- The integers that can be held with the bits of a size. -/
def Holds : Narrow → Int32 → Prop
  | .byte, n => -128 ≤ n.toInt ∧ n.toInt < 128
  | .short, n => -32768 ≤ n.toInt ∧ n.toInt < 32768

/-- What fits 8 bits fits 16. -/
theorem Holds.widen {n : Int32} (h : byte.Holds n) : short.Holds n := by
  obtain ⟨low, high⟩ := h
  exact ⟨by omega, by omega⟩

/-- An integer is collected only for a size that has room for it. -/
theorem holds_of_of? {s : Narrow} {n : Int32} (h : of? n = some s) : s.Holds n := by
  simp only [of?] at h
  split at h
  · cases h; exact ⟨by omega, by omega⟩
  · split at h
    · cases h; exact ⟨by omega, by omega⟩
    · cases h

end Narrow

open Narrow (byte short)

theorem unpackShorts_packShorts {a b : Int32} (ha : short.Holds a) (hb : short.Holds b) :
    unpackShorts (packShorts a b) = [a, b] := by
  obtain ⟨ha₁, ha₂⟩ := ha
  obtain ⟨hb₁, hb₂⟩ := hb
  have value : (packShorts a b).toInt = a.toInt * 65536 + b.toInt % 65536 := by
    rw [packShorts, Int32.toInt_ofInt, Int.bmod_def]
    simp only [Int32.size]
    split <;> omega
  have high : (packShorts a b).toInt / 65536 = a.toInt := by omega
  have low : (packShorts a b).toInt.bmod 65536 = b.toInt := by
    rw [value, Int.bmod_def]
    split <;> omega
  simp only [unpackShorts, high, low, Int32.ofInt_toInt]

theorem unpackBytes_packBytes {a b c d : Int32} (ha : byte.Holds a) (hb : byte.Holds b)
    (hc : byte.Holds c) (hd : byte.Holds d) : unpackBytes (packBytes a b c d) = [a, b, c, d] := by
  obtain ⟨ha₁, ha₂⟩ := ha
  obtain ⟨hb₁, hb₂⟩ := hb
  obtain ⟨hc₁, hc₂⟩ := hc
  obtain ⟨hd₁, hd₂⟩ := hd
  have value : (packBytes a b c d).toInt =
      a.toInt * 16777216 + b.toInt % 256 * 65536 + c.toInt % 256 * 256 + d.toInt % 256 := by
    rw [packBytes, Int32.toInt_ofInt, Int.bmod_def]
    simp only [Int32.size]
    split <;> omega
  have first : ((packBytes a b c d).toInt / 16777216).bmod 256 = a.toInt := by
    rw [value, Int.bmod_def]; split <;> omega
  have second : ((packBytes a b c d).toInt / 65536).bmod 256 = b.toInt := by
    rw [value, Int.bmod_def]; split <;> omega
  have third : ((packBytes a b c d).toInt / 256).bmod 256 = c.toInt := by
    rw [value, Int.bmod_def]; split <;> omega
  have fourth : ((packBytes a b c d).toInt / 1).bmod 256 = d.toInt := by
    rw [value, Int.bmod_def]; split <;> omega
  simp only [unpackBytes, List.map_cons, List.map_nil, first, second, third, fourth,
    Int32.ofInt_toInt]

/-- The packed load of a run of two or more integers of one size pushes these integers. -/
theorem packedOperands_of_packed {s : Narrow} {a b : Int32} {run : List Int32}
    (sized : ∀ n ∈ a :: b :: run, Narrow.of? n = some s) (room : run.length + 2 ≤ s.capacity) :
    ∃ i, packed (a :: b :: run) = [i] ∧ i.taken = .nothing ∧ i.packedOperands = a :: b :: run := by
  have holds : ∀ n ∈ a :: b :: run, s.Holds n := fun n hn => Narrow.holds_of_of? (sized n hn)
  have ha : s.Holds a := holds a (by simp)
  have hb : s.Holds b := holds b (by simp)
  match run, holds, room with
  | [], _, _ =>
    refine ⟨_, rfl, rfl, ?_⟩
    cases s with
    | byte => exact unpackShorts_packShorts ha.widen hb.widen
    | short => exact unpackShorts_packShorts ha hb
  | [c], holds, room =>
    cases s with
    | short => simp [Narrow.capacity] at room
    | byte =>
      refine ⟨_, rfl, rfl, ?_⟩
      have zero : byte.Holds 0 := ⟨by decide, by decide⟩
      change (unpackBytes (packBytes a b c 0)).take 3 = _
      rw [unpackBytes_packBytes ha hb (holds c (by simp)) zero]
      rfl
  | [c, d], holds, room =>
    cases s with
    | short => simp [Narrow.capacity] at room
    | byte =>
      exact ⟨_, rfl, rfl, unpackBytes_packBytes ha hb (holds c (by simp)) (holds d (by simp))⟩
  | _ :: _ :: _ :: _, _, room => cases s <;> simp [Narrow.capacity] at room

end CompactFont.Charstring
