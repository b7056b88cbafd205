import CompactFont.Proofs.Charstring.Flattening
import CompactFont.Proofs.Charstring.Written
import CompactFont.Proofs.Index

/-!
# Which subroutine an operand selects

An operand selects the subroutine whose number is the operand and the bias together, and it selects none
if there is no such number. The sum has to have 32 bits as well, but numbers of subroutines are so much
smaller that a sum which has more stands for none of them (`Subroutines.get_of_none`).

The bias grows with the number of subroutines, so that the operand of any of them has 16 bits
(`fits_subroutineBias`). **`Subroutines.addressed_of_read`** says that all subroutines can be called so,
and nothing else, with every INDEX that is read.
-/

namespace CompactFont.Charstring

/-- A number less the bias has 16 bits, where there are at most 65535 subroutines. -/
theorem fits_subroutineBias {count k : Nat} (inside : k < count) (few : count ≤ 65535) :
    IntForm.short.Fits (k - subroutineBias count) := by
  have low : -32768 ≤ (k : Int) - subroutineBias count := by
    unfold subroutineBias
    split
    · omega
    · split <;> omega
  have high : (k : Int) - subroutineBias count ≤ 32767 := by
    unfold subroutineBias
    split
    · omega
    · split <;> omega
  exact ⟨low, high⟩

namespace Subroutines

variable {s : Subroutines} {operand : Int32} {k : Nat}

theorem number?_eq_some_iff : s.number? operand = some k ↔
    (k : Int) = operand.toInt + s.bias ∧ operand.toInt + s.bias ≤ Int32.maxValue.toInt := by
  unfold number?
  dsimp only
  constructor
  · intro h
    split at h
    · rename_i sum
      cases h
      exact ⟨Int.toNat_of_nonneg sum.2, sum.1⟩
    · cases h
  · rintro ⟨number, low⟩
    rw [← number] at low ⊢
    rw [if_pos ⟨low, Int.natCast_nonneg k⟩, Int.toNat_natCast]

/-- An object is selected by its number less the bias. -/
theorem get_of_number {object : List UInt8} (number : (k : Int) = operand.toInt + s.bias)
    (few : k ≤ 65535) (found : s.index.get? k = some object) : s.get operand = .ok object := by
  have sum : s.number? operand = some k := by
    refine number?_eq_some_iff.mpr ⟨number, ?_⟩
    rw [← number]
    exact Int.le_trans (Int.ofNat_le.mpr few) (by decide)
  rw [get, sum, Option.bind_some, found]

/-- Where no number is the sum, nothing is selected, whether the sum has 32 bits or not. -/
theorem get_of_none (none : ¬(0 ≤ operand.toInt + s.bias ∧ operand.toInt + s.bias < s.index.count)) :
    s.get operand = .error .noSuchSubroutine := by
  rw [get]
  cases sum : s.number? operand with
  | none => rfl
  | some k =>
    have number := (number?_eq_some_iff.mp sum).1
    have past : s.index.count ≤ k := by omega
    rw [Option.bind_some, Index.get?_eq_none past]

/-- The number of an object less the bias is an integer that the short form has room for. -/
theorem exists_operand (inside : k < s.index.count) (few : s.index.count ≤ 65535) :
    ∃ n : Int16, n.toInt = k - s.bias ∧ (Operand.int n).Fits .short := by
  have fits := fits_subroutineBias inside few
  have number : (Int16.ofInt (k - s.bias)).toInt = k - s.bias :=
    Int16.toInt_ofInt_of_le fits.1 (Int.lt_add_one_of_le fits.2)
  refine ⟨Int16.ofInt (k - s.bias), number, by decide, ?_⟩
  rw [number]
  exact fits

/-- **Every subroutine can be called, and nothing else.** With an INDEX that is read an operand selects the
object whose number is the sum of the operand and the bias. If the sum is not the number of an object the
operand is refused, also if the sum does not have 32 bits. The number of each object less the bias is an
operand of 16 bits: it is read off its three bytes in the short form, and a call by it goes on with the
bytes of the object and with what was known before the operand. -/
theorem addressed_of_read {bytes rest : List UInt8} {x : Index}
    (h : Index.read bytes = .ok (x, rest)) :
    let s : Subroutines := ⟨x⟩
    (∀ operand : Int32,
      if 0 ≤ operand.toInt + s.bias ∧ operand.toInt + s.bias < x.count then
        ∃ object, x.get? (operand.toInt + s.bias).toNat = some object ∧ s.get operand = .ok object
      else s.get operand = .error .noSuchSubroutine) ∧
    ∀ k < x.count, ∃ (n : Int16) (object : List UInt8),
      n.toInt = k - s.bias ∧ -32768 ≤ (k : Int) - s.bias ∧ (k : Int) - s.bias ≤ 32767 ∧
      (∀ more, Token.read (IntForm.short.encode (k - s.bias) ++ more) =
        .ok (.operand (.int n), more)) ∧
      x.get? k = some object ∧ s.get n.toInt32 = .ok object ∧
      ∀ sets scope run p, SubroutineSets.get sets scope = .ok s →
        call sets (some run) scope (p.operand (.int n)) = run object p := by
  intro s
  have accepted := Index.accepted_of_read h
  have few : x.count ≤ 65535 := Nat.le_of_lt_succ accepted.count_lt
  constructor
  · intro operand
    split
    · rename_i inside
      obtain ⟨low, high⟩ := inside
      have number := Int.toNat_of_nonneg low
      have inside : (operand.toInt + s.bias).toNat < x.count := by omega
      obtain ⟨object, found⟩ := accepted.exists_get? inside
      exact ⟨object, found, get_of_number number (by omega) found⟩
    · rename_i outside
      exact get_of_none outside
  · intro k inside
    obtain ⟨object, found⟩ := accepted.exists_get? inside
    obtain ⟨n, number, fits⟩ := @exists_operand s k inside few
    have read (more : List UInt8) := fits.read more
    rw [Operand.encode, number] at read
    have selected : s.get n.toInt32 = .ok object := by
      refine get_of_number ?_ (by omega) found
      rw [Int16.toInt_toInt32, number]
      exact (Int.sub_add_cancel _ _).symm
    obtain ⟨low, high⟩ := fits.2
    rw [number] at low high
    exact ⟨n, object, number, low, high, read, found, selected,
      fun sets scope run p known => call_eq (p.takeCallOperand_operand n) known selected⟩

/-- Two subroutines. The sum of the last operand and the bias does not have 32 bits. -/
theorem addressed_of_read_two :
    let x : Index := ⟨#[1, 2, 3], #[11, 14]⟩
    let s : Subroutines := ⟨x⟩
    Index.read [0, 2, 1, 1, 2, 3, 11, 14] = .ok (x, []) ∧ s.get (-107) = .ok [11] ∧
      s.get (-106) = .ok [14] ∧ s.get (-105) = .error .noSuchSubroutine ∧
      s.get (-108) = .error .noSuchSubroutine ∧ s.get 2147483647 = .error .noSuchSubroutine := by
  intro x s
  have read : Index.read [0, 2, 1, 1, 2, 3, 11, 14] = .ok (x, []) := rfl
  obtain ⟨selects, each⟩ := addressed_of_read read
  have second := selects (-106)
  rw [if_pos (by decide)] at second
  obtain ⟨object, found, selected⟩ := second
  have place : ((-106 : Int32).toInt + s.bias).toNat = 1 := by decide
  rw [place] at found
  cases found
  obtain ⟨n, object, number, -, -, -, found, called, -⟩ := each 0 (by decide)
  cases found
  have first : n.toInt32 = -107 := by
    rw [← Int32.toInt_inj, Int16.toInt_toInt32, number]
    decide
  rw [first] at called
  have after := selects (-105)
  rw [if_neg (by decide)] at after
  have before := selects (-108)
  rw [if_neg (by decide)] at before
  have overflow := selects 2147483647
  rw [if_neg (by decide)] at overflow
  exact ⟨read, called, selected, after, before, overflow⟩

end Subroutines

end CompactFont.Charstring
