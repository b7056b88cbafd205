import CompactFont.Proofs.Charstring.Invariant

/-!
# What decoding makes

The instructions that decoding can make (`Instruction.Decoded`) are loads of single operands, the
width, masks, and operations that have no value. So none of them has taken over a load, and none is
a packed load (`Instruction.Decoded.unpacked`).
-/

namespace CompactFont.Charstring

/-- The instructions that decoding can make. -/
inductive Instruction.Decoded : Instruction → Prop where
  /-- The load of an operand. -/
  | load (value : Operand) : Decoded value.load
  /-- The width. -/
  | width (n : Int32) : Decoded (.withValue .width n)
  /-- The load of bytes of a long mask. -/
  | maskBytes (bytes : List UInt8) : Decoded (.int (Progress.maskValue bytes))
  /-- A mask. -/
  | mask (kind : MaskKind) (form : MaskForm) (value : Int32) :
      Decoded (.withValue (.mask kind form) value)
  /-- An operation that is no load, and has no value. -/
  | plain {op : Op} (h : op.isLoad = false) : Decoded (.plain op)

/-- An instruction that pushes one operand at most: it has taken over none and packs none. -/
def Instruction.Unpacked (i : Instruction) : Prop :=
  i.taken = .nothing ∧ i.op ≠ .load .shorts ∧ i.op ≠ .load .fourBytes ∧ i.op ≠ .load .threeBytes

theorem Instruction.Decoded.unpacked {i : Instruction} (h : i.Decoded) : i.Unpacked := by
  cases h with
  | load value => cases value <;> exact ⟨rfl, nofun, nofun, nofun⟩
  | width n => exact ⟨rfl, nofun, nofun, nofun⟩
  | maskBytes bytes => exact ⟨rfl, nofun, nofun, nofun⟩
  | mask kind form value => exact ⟨rfl, nofun, nofun, nofun⟩
  | plain h =>
    refine ⟨rfl, ?_, ?_, ?_⟩
    all_goals
      rintro rfl
      cases h

theorem decoded_of_mem_maskInstructions {kind : MaskKind} {bytes : List UInt8} {i : Instruction}
    (h : i ∈ Progress.maskInstructions kind bytes) : i.Decoded := by
  unfold Progress.maskInstructions at h
  split at h
  · rcases List.mem_append.mp h with h | h
    · obtain ⟨chunk, -, rfl⟩ := List.mem_map.mp h
      exact .maskBytes chunk
    · rw [List.mem_singleton.mp h]
      exact .mask kind .many _
  · rw [List.mem_singleton.mp h]
    exact .mask kind _ _

namespace Progress

/-- All instructions made so far are ones that decoding can make. -/
def MadeDecoded (p : Progress) : Prop := ∀ i ∈ p.made, i.Decoded

theorem MadeDecoded.make {p : Progress} (h : p.MadeDecoded) {i : Instruction} (hi : i.Decoded) :
    (p.make i).MadeDecoded := by
  intro j hj
  rcases List.mem_cons.mp hj with rfl | hj
  · exact hi
  · exact h j hj

theorem madeInvariant_decoded : MadeInvariant fun made _ => ∀ i ∈ made, i.Decoded where
  push value h := List.forall_mem_cons.mpr ⟨.load value, h⟩
  plain notLoad h := List.forall_mem_cons.mpr ⟨.plain notLoad, h⟩
  mask kind bytes h := by
    intro i hi
    rcases List.mem_append.mp hi with hi | hi
    · exact decoded_of_mem_maskInstructions (List.mem_reverse.mp hi)
    · exact h i hi
  settle h := h
  width _ h := by
    intro i hi
    rcases List.mem_or_eq_of_mem_set hi with hi | rfl
    · exact h i hi
    · exact .width _
  pop _ h := (List.forall_mem_cons.mp h).2

theorem invariant_madeDecoded : Invariant MadeDecoded := madeInvariant_decoded.invariant

end Progress

/-- **Decoding** makes no other instructions than the ones named. -/
theorem decoded_of_decode {sets : SubroutineSets} {charstring : List UInt8}
    {list : List Instruction} (h : decode sets charstring = .ok list) : ∀ i ∈ list, i.Decoded := by
  have made {e : Ending} {p : Progress}
      (hp : decodeNested sets nestingLimit charstring {} = .ok (e, p)) : p.MadeDecoded :=
    Progress.invariant_madeDecoded.decodeNested hp (fun i hi => by cases hi)
  unfold decode at h
  split at h
  · cases h
  · rename_i p hp
    cases h
    exact fun i hi => (made hp).make (.plain rfl) i (List.mem_reverse.mp hi)
  · rename_i hp
    cases h
    exact fun i hi => made hp i (List.mem_reverse.mp hi)

end CompactFont.Charstring
