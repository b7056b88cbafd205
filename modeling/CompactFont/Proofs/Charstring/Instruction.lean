import CompactFont.Charstring.Compaction

/-!
# Instructions that are told apart

Decoding and compaction ask a few questions of an instruction before they change it: whether it is
the load of one integer, whether it can be taken over, and whether it can take over a load. What the
instruction is when the answer is yes is said here for each of them.
-/

namespace CompactFont.Charstring

/-- The load of one integer. -/
theorem Instruction.eq_int_of_isInt {i : Instruction} (h : i.isInt = true) : i = .int i.value := by
  obtain ⟨op, taken, value⟩ := i
  simp only [Instruction.isInt, decide_eq_true_eq] at h
  obtain ⟨rfl, rfl⟩ := h
  rfl

/-- The loads that can be taken over. -/
theorem Instruction.takeable?_eq_some {i : Instruction} {taken : Taken}
    (h : i.takeable? = some taken) :
    i = .int i.value ∧ taken = .int ∨
    i = .withValue (.load .shorts) i.value ∧ taken = .shorts ∨
    i = .withValue (.load .fourBytes) i.value ∧ taken = .fourBytes := by
  obtain ⟨op, itaken, value⟩ := i
  unfold Instruction.takeable? at h
  split at h
  · rename_i nothing
    cases nothing
    split at h
    · rename_i hop; cases hop; cases h; exact .inl ⟨rfl, rfl⟩
    · rename_i hop; cases hop; cases h; exact .inr (.inl ⟨rfl, rfl⟩)
    · rename_i hop; cases hop; cases h; exact .inr (.inr ⟨rfl, rfl⟩)
    · cases h
  · cases h

/-- The instructions that can take over a load. -/
theorem Instruction.takes_eq_true {i : Instruction} (h : i.takes = true) :
    ∃ op, i = .plain op ∧ op.isLoad = false ∧ op.isMask = false := by
  obtain ⟨op, taken, value⟩ := i
  simp only [Instruction.takes, Bool.not_eq_true', decide_eq_true_eq] at h
  obtain ⟨rfl, rfl, notLoad, notMask⟩ := h
  exact ⟨op, rfl, notLoad, notMask⟩

end CompactFont.Charstring
