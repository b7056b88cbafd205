import CompactFont.Proofs.Charstring.Courses
import CompactFont.Proofs.Charstring.Decoded

/-!
# Lists that are well formed

What decoding makes is well formed (`WellFormed`): no instruction has taken over a load, none is a packed
load or a call, and none but the last one ends the glyph or a subroutine. An operation that is no load,
width or mask has no value, and an integer has 16 bits unless it holds bytes of a mask; those that do
stand right before the mask.

Decoding rewrites instructions, takes them back and puts in others. All this happens behind the last mask
and keeps the instructions there ordinary (`Instruction.Ordinary`). A charstring that differs in no mask
from itself is therefore remasked to itself (`remaskedTo_self`), and that tells of each instruction of
which sort it is (`Sorted`).
-/

namespace CompactFont.Charstring

/-- What is true of a list that was decoded. -/
structure WellFormed (list : List Instruction) : Prop where
  /-- Nothing was taken over. -/
  taken : ∀ i ∈ list, i.taken = .nothing
  /-- No load is packed. -/
  unpacked : ∀ i ∈ list, i.op ≠ .load .shorts ∧ i.op ≠ .load .fourBytes ∧ i.op ≠ .load .threeBytes
  /-- Nothing is called. -/
  noCall : ∀ i ∈ list, ∀ scope, i.op ≠ .call scope
  /-- The glyph, or a subroutine, ends with the last instruction. -/
  last : ∀ n i, list[n]? = some i → i.op = .endchar ∨ i.op = .ret → n + 1 = list.length
  /-- Integers have 16 bits. -/
  int : ∀ n i, list[n]? = some i → i.op = .load .int → ¬IsMaskData list n →
    -32768 ≤ i.value.toInt ∧ i.value.toInt ≤ 32767
  /-- Bytes of masks are held by loads of integers. -/
  maskData : ∀ n, IsMaskData list n → ∃ value, list[n]? = some (.int value)
  /-- Only loads, widths and masks have a value. -/
  value : ∀ i ∈ list, i.op.isLoad = false → i.op ≠ .width → i.op.isMask = false → i.value = 0

/-! ### Sorts of instructions -/

/-- Of which sort the instruction at position `n` is. -/
inductive Sorted (list : List Instruction) (n : Nat) : Instruction → Prop where
  /-- It holds no bytes of a mask. -/
  | ordinary {i : Instruction} (ordinary : i.Ordinary) : Sorted list n i
  /-- It is a mask. -/
  | mask (kind : MaskKind) (form : MaskForm) (value : Int32) :
      Sorted list n (.withValue (.mask kind form) value)
  /-- It holds bytes of a mask that comes after it. -/
  | data (value : Int32) (data : IsMaskData list n) : Sorted list n (.int value)

theorem Sorted.mono {list list' : List Instruction} {n n' : Nat} {i : Instruction}
    (h : Sorted list n i) (data : IsMaskData list n → IsMaskData list' n') : Sorted list' n' i := by
  cases h with
  | ordinary ordinary => exact .ordinary ordinary
  | mask kind form value => exact .mask kind form value
  | data value here => exact .data value (data here)

/-- Every instruction is of one of the sorts, and long masks come right after their loads. -/
structure Arranged (list : List Instruction) : Prop where
  /-- The instructions. -/
  each : ∀ n i, list[n]? = some i → Sorted list n i
  /-- The loads before a mask. -/
  loads : ∀ m kind length, list[m]? = some (.withValue (.mask kind .many) length) →
    loadsOfMask length ≤ m ∧
      ∀ n < m, m ≤ n + loadsOfMask length → ∃ value, list[n]? = some (.int value)

namespace Arranged

variable {list more : List Instruction}

theorem append (h : Arranged list) (h' : Arranged more) : Arranged (list ++ more) where
  each n i hi := by
    rcases getElem?_append_cases hi with ⟨-, here⟩ | ⟨m, rfl, here⟩
    · exact (h.each n i here).mono fun data => data.append more
    · exact (h'.each m i here).mono fun data => data.behind list
  loads m kind length hm := by
    rcases getElem?_append_cases hm with ⟨inFront, here⟩ | ⟨k, rfl, here⟩
    · obtain ⟨enough, before⟩ := h.loads m kind length here
      refine ⟨enough, fun n hn near => ?_⟩
      rw [List.getElem?_append_left (Nat.lt_trans hn inFront)]
      exact before n hn near
    · obtain ⟨enough, before⟩ := h'.loads k kind length here
      refine ⟨by omega, fun n hn near => ?_⟩
      obtain ⟨j, rfl⟩ := Nat.exists_eq_add_of_le (show list.length ≤ n by omega)
      rw [getElem?_append_add]
      exact before j (by omega) (by omega)

theorem one {i : Instruction} (sorted : Sorted [i] 0 i)
    (few : ∀ kind, i.op ≠ .mask kind .many) : Arranged [i] where
  each n j hj := by
    cases n with
    | zero => cases hj; exact sorted
    | succ n => cases hj
  loads m kind length hm := by
    cases m with
    | zero => cases hm; exact absurd rfl (few kind)
    | succ m => cases hm

end Arranged

/-- A long mask with the loads that hold its bytes. -/
theorem arranged_loads {values : List Int32} {length : Int32}
    (count : values.length = loadsOfMask length) (kind : MaskKind) :
    Arranged (values.map .int ++ [.withValue (.mask kind .many) length]) := by
  have inside {n : Nat} (hn : n < values.length) :
      (values.map Instruction.int ++ [.withValue (.mask kind .many) length])[n]? =
        some (.int values[n]) := by
    rw [List.getElem?_append_left (by simpa using hn), List.getElem?_map,
      List.getElem?_eq_getElem hn, Option.map_some]
  have atEnd {n : Nat} {i : Instruction} (hn : ¬n < values.length)
      (hi : (values.map Instruction.int ++ [.withValue (.mask kind .many) length])[n]? = some i) :
      n = values.length ∧ i = .withValue (.mask kind .many) length := by
    rw [← List.length_map Instruction.int] at hn ⊢
    rcases getElem?_append_cases hi with ⟨inFront, -⟩ | ⟨m, rfl, here⟩
    · exact absurd inFront hn
    · obtain ⟨inside, rfl⟩ := List.getElem?_eq_some_iff.mp here
      obtain rfl : m = 0 := Nat.lt_one_iff.mp inside
      exact ⟨rfl, rfl⟩
  refine ⟨fun n i hi => ?_, fun m kind' length' hm => ?_⟩
  · by_cases hn : n < values.length
    · obtain rfl := Option.some.inj ((inside hn).symm.trans hi)
      exact .data _ (isMaskData_loads count kind [] hn)
    · obtain ⟨-, rfl⟩ := atEnd hn hi
      exact .mask kind .many length
  · by_cases hn : m < values.length
    · cases (inside hn).symm.trans hm
    · obtain ⟨rfl, same⟩ := atEnd hn hm
      cases same
      exact ⟨Nat.le_of_eq count.symm, fun n hn _ => ⟨_, inside hn⟩⟩

theorem Remasked.arranged {list list' : List Instruction} (h : Remasked list list') :
    Arranged list := by
  induction h with
  | nil => exact ⟨nofun, nofun⟩
  | same ordinary _ ih =>
    refine (Arranged.one (.ordinary ordinary) fun kind is => ?_).append ih
    cases ordinary with
    | load value => cases value <;> cases is
    | width n => cases is
    | plain operator => cases is; cases operator
  | inValue value value' few _ ih =>
    refine (Arranged.one (.mask _ _ value) fun kind is => few ?_).append ih
    cases is
    rfl
  | inLoads many count count' _ ih => simpa using (arranged_loads count _).append ih

/-! ### Decoded lists -/

/-- An instruction that was arranged, or the one that ends the list. -/
theorem RemaskedTo.sorted_or_last {list list' : List Instruction} (h : RemaskedTo list list')
    {n : Nat} {i : Instruction} (hi : list[n]? = some i) :
    Sorted list n i ∨ n + 1 = list.length ∧ (i = .plain .endchar ∨ i = .plain .ret) := by
  cases h with
  | @ending body body' last remasked endings =>
    rcases getElem?_append_cases hi with ⟨-, here⟩ | ⟨m, rfl, here⟩
    · exact .inl ((remasked.arranged.each n i here).mono fun data => data.append last)
    · right
      rw [List.length_append]
      obtain ⟨inside, rfl⟩ := List.getElem?_eq_some_iff.mp here
      rcases endings with rfl | rfl | rfl
      · cases inside
      all_goals
        obtain rfl : m = 0 := Nat.lt_one_iff.mp inside
        simp

/-- What holds bytes of a mask is the load of an integer. -/
theorem RemaskedTo.isMaskData {list list' : List Instruction} (h : RemaskedTo list list') {n : Nat}
    (data : IsMaskData list n) : ∃ value, list[n]? = some (.int value) := by
  cases h with
  | @ending body body' last remasked endings =>
    obtain ⟨m, kind, length, hm, before, near⟩ := data
    rcases getElem?_append_cases hm with ⟨inBody, here⟩ | ⟨k, rfl, here⟩
    · rw [List.getElem?_append_left (Nat.lt_trans before inBody)]
      exact (remasked.arranged.loads m kind length here).2 n before near
    · have mem := List.mem_of_getElem? here
      rcases endings with rfl | rfl | rfl
      · cases mem
      · cases List.mem_singleton.mp mem
      · cases List.mem_singleton.mp mem

theorem Input.SameShape.refl (input : Input) : input.SameShape input where
  charstring := rfl
  inAll := ⟨rfl, rfl⟩
  inPrivate := by
    cases input.sets.inPrivate with
    | none => exact .none
    | some s => exact .some ⟨rfl, rfl⟩

/-- A list that was decoded is remasked to itself. -/
theorem remaskedTo_self {sets : SubroutineSets} {charstring : List UInt8} {list : List Instruction}
    (h : decode sets charstring = .ok list) : RemaskedTo list list := by
  let input : Input := ⟨charstring, sets⟩
  have related := related_decode (Input.SameShape.refl input) (fun _ _ _ => rfl)
  have decoded : input.decode = .ok list := h
  rw [decoded] at related
  cases related with
  | ok related => exact related

/-- An ordinary instruction that loads an integer loads one of 16 bits. -/
theorem Instruction.Ordinary.value_of_int {i : Instruction} (h : i.Ordinary)
    (int : i.op = .load .int) : -32768 ≤ i.value.toInt ∧ i.value.toInt ≤ 32767 := by
  cases h with
  | load value =>
    cases value with
    | int n =>
      change -32768 ≤ n.toInt32.toInt ∧ n.toInt32.toInt ≤ 32767
      rw [Int16.toInt_toInt32]
      exact ⟨n.le_toInt, Int.le_of_lt_add_one n.toInt_lt⟩
    | fixed n => cases int
  | width n => cases int
  | plain operator => cases int; cases operator

/-- Only the last instruction ends the glyph, or a subroutine, or is of no sort. -/
theorem Sorted.op_ne {list : List Instruction} {n : Nat} {i : Instruction} (h : Sorted list n i) :
    i.op ≠ .endchar ∧ i.op ≠ .ret ∧ ∀ scope, i.op ≠ .call scope := by
  cases h with
  | ordinary ordinary =>
    cases ordinary with
    | load value => cases value <;> exact ⟨nofun, nofun, nofun⟩
    | width n => exact ⟨nofun, nofun, nofun⟩
    | @plain op operator =>
      refine ⟨?_, ?_, fun scope => ?_⟩
      all_goals
        rintro rfl
        cases operator
  | mask kind form value => exact ⟨nofun, nofun, nofun⟩
  | data value data => exact ⟨nofun, nofun, nofun⟩

/-- What decoding makes is well formed. -/
theorem WellFormed.of_decode {sets : SubroutineSets} {charstring : List UInt8}
    {list : List Instruction} (h : decode sets charstring = .ok list) : WellFormed list where
  taken i hi := (decoded_of_decode h i hi).unpacked.1
  unpacked i hi := (decoded_of_decode h i hi).unpacked.2
  noCall i hi scope := by
    obtain ⟨n, hn⟩ := List.mem_iff_getElem?.mp hi
    rcases (remaskedTo_self h).sorted_or_last hn with sorted | ⟨-, rfl | rfl⟩
    · exact sorted.op_ne.2.2 scope
    · exact nofun
    · exact nofun
  last n i hi ends := by
    rcases (remaskedTo_self h).sorted_or_last hi with sorted | ⟨last, -⟩
    · exact absurd ends (not_or.mpr ⟨sorted.op_ne.1, sorted.op_ne.2.1⟩)
    · exact last
  int n i hi int notData := by
    rcases (remaskedTo_self h).sorted_or_last hi with sorted | ⟨-, rfl | rfl⟩
    · cases sorted with
      | ordinary ordinary => exact ordinary.value_of_int int
      | mask kind form value => cases int
      | data value data => exact absurd data notData
    · cases int
    · cases int
  maskData n data := (remaskedTo_self h).isMaskData data
  value i hi notLoad notWidth notMask := by
    cases decoded_of_decode h i hi with
    | load value => cases value <;> cases notLoad
    | width n => exact absurd rfl notWidth
    | maskBytes bytes => cases notLoad
    | mask kind form value => cases notMask
    | plain h => rfl

end CompactFont.Charstring
