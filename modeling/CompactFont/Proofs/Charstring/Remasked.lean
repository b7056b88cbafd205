import CompactFont.Proofs.Charstring.MaskLayout

/-!
# Lists with other masks

Two lists are remasked if the one becomes the other by giving other bytes to its masks, as many to each
(`Remasked`). Up to four bytes are in the value of the mask; more are in the loads right before it, which
are then as many in both lists. All other instructions are the same, and none of them holds bytes of a
mask (`Instruction.Ordinary`).

So the lists are of one length and differ at most in the values of masks, and of the loads that hold
bytes of masks (`Remasked.differInMasks`). Which loads these are is told by their place: a long mask says
how many bytes it has (`IsMaskData`).
-/

namespace CompactFont.Charstring

/-- An instruction that holds no bytes of a mask, and ends nothing. -/
inductive Instruction.Ordinary : Instruction → Prop where
  /-- The load of an operand. -/
  | load (value : Operand) : Ordinary value.load
  /-- The width. -/
  | width (n : Int32) : Ordinary (.withValue .width n)
  /-- An operator. -/
  | plain {op : Op} (operator : op.isOperator = true) : Ordinary (.plain op)

/-- How many loads hold the bytes of a mask that has so many. -/
def loadsOfMask (length : Int32) : Nat := (length.toInt.toNat + 3) / 4

/-- The lists are the same but for the bytes of masks. -/
inductive Remasked : List Instruction → List Instruction → Prop where
  /-- There are no instructions. -/
  | nil : Remasked [] []
  /-- An instruction that stays. -/
  | same {i : Instruction} {list list' : List Instruction} (ordinary : i.Ordinary)
      (rest : Remasked list list') : Remasked (i :: list) (i :: list')
  /-- A mask that holds its bytes in its value. -/
  | inValue {kind : MaskKind} {form : MaskForm} {list list' : List Instruction} (value value' : Int32)
      (few : form ≠ .many) (rest : Remasked list list') :
      Remasked (.withValue (.mask kind form) value :: list)
        (.withValue (.mask kind form) value' :: list')
  /-- A mask with the loads that hold its bytes. -/
  | inLoads {kind : MaskKind} {length : Int32} {values values' : List Int32}
      {list list' : List Instruction} (many : 4 < length.toInt)
      (count : values.length = loadsOfMask length) (count' : values'.length = loadsOfMask length)
      (rest : Remasked list list') :
      Remasked (values.map .int ++ .withValue (.mask kind .many) length :: list)
        (values'.map .int ++ .withValue (.mask kind .many) length :: list')

namespace Remasked

variable {list list' more more' : List Instruction}

theorem append (h : Remasked list list') (h' : Remasked more more') :
    Remasked (list ++ more) (list' ++ more') := by
  induction h with
  | nil => exact h'
  | same ordinary _ ih => exact .same ordinary ih
  | inValue value value' few _ ih => exact .inValue value value' few ih
  | inLoads many count count' _ ih =>
    rw [List.append_assoc, List.append_assoc]
    exact .inLoads many count count' ih

/-- Ordinary instructions stay. -/
theorem of_ordinary (h : ∀ i ∈ list, i.Ordinary) : Remasked list list := by
  induction list with
  | nil => exact .nil
  | cons i list ih =>
    obtain ⟨first, others⟩ := List.forall_mem_cons.mp h
    exact .same first (ih others)

/-- Masks of as many bytes. -/
theorem of_masks (kind : MaskKind) {bytes bytes' : List UInt8} (same : bytes.length = bytes'.length)
    (some : bytes ≠ []) (short : bytes.length < 2147483648) :
    Remasked (Progress.maskInstructions kind bytes) (Progress.maskInstructions kind bytes') := by
  have some' : bytes' ≠ [] := by
    rw [← List.length_pos_iff] at some ⊢
    exact same ▸ some
  by_cases many : 4 < bytes.length
  · have length : (Int32.ofNat bytes.length).toInt = bytes.length := Int32.toInt_ofNat_of_lt short
    have count : loadsOfMask (Int32.ofNat bytes.length) = (bytes.length + 3) / 4 := by
      rw [loadsOfMask, length, Int.toNat_natCast]
    rw [Progress.maskInstructions_of_many kind many,
      Progress.maskInstructions_of_many kind (same ▸ many), ← same]
    refine .inLoads (by omega) ?_ ?_ .nil
    · rw [List.length_map, Progress.length_maskChunks, count]
    · rw [List.length_map, Progress.length_maskChunks, count, same]
  · have few : bytes.length ≤ 4 := Nat.not_lt.mp many
    obtain ⟨form, instructions⟩ := Progress.maskInstructions_of_few kind some few
    rw [instructions, (Progress.maskInstructions_of_few kind some' (same ▸ few)).2, ← same]
    refine .inValue _ _ (fun is => ?_) .nil
    rw [is] at form
    cases form

end Remasked

/-! ### Places in lists -/

section

variable {α : Type} {front list : List α}

theorem getElem?_append_add (front list : List α) (n : Nat) :
    (front ++ list)[front.length + n]? = list[n]? := by
  rw [List.getElem?_append_right (Nat.le_add_right _ _), Nat.add_sub_cancel_left]

/-- What stands in a list stands in its front, or so many places behind it. -/
theorem getElem?_append_cases {n : Nat} {a : α} (h : (front ++ list)[n]? = some a) :
    n < front.length ∧ front[n]? = some a ∨ ∃ m, n = front.length + m ∧ list[m]? = some a := by
  by_cases inFront : n < front.length
  · rw [List.getElem?_append_left inFront] at h
    exact .inl ⟨inFront, h⟩
  · obtain ⟨m, rfl⟩ := Nat.exists_eq_add_of_le (Nat.not_lt.mp inFront)
    rw [getElem?_append_add] at h
    exact .inr ⟨m, rfl, h⟩

end

/-- The instruction at position `n` is one of those right before a mask that hold its bytes. -/
def IsMaskData (list : List Instruction) (n : Nat) : Prop :=
  ∃ m kind length, list[m]? = some (.withValue (.mask kind .many) length) ∧ n < m ∧
    m ≤ n + loadsOfMask length

namespace IsMaskData

variable {list : List Instruction} {n : Nat}

theorem append (h : IsMaskData list n) (more : List Instruction) : IsMaskData (list ++ more) n := by
  obtain ⟨m, kind, length, mask, before, near⟩ := h
  obtain ⟨inside, -⟩ := List.getElem?_eq_some_iff.mp mask
  exact ⟨m, kind, length, by rw [List.getElem?_append_left inside, mask], before, near⟩

theorem behind (h : IsMaskData list n) (front : List Instruction) :
    IsMaskData (front ++ list) (front.length + n) := by
  obtain ⟨m, kind, length, mask, before, near⟩ := h
  exact ⟨front.length + m, kind, length, by rw [getElem?_append_add, mask], by omega, by omega⟩

end IsMaskData

/-- Two lists of one length differ at most in the values of masks, and of the loads that hold bytes of
masks. -/
structure DifferInMasks (list list' : List Instruction) : Prop where
  /-- As many instructions. -/
  length : list.length = list'.length
  /-- Each of them but for its value, and its value too unless it holds bytes of a mask. -/
  each : ∀ n i i', list[n]? = some i → list'[n]? = some i' → i.op = i'.op ∧ i.taken = i'.taken ∧
    (i.value = i'.value ∨ i.op.isMask = true ∨ IsMaskData list n)

namespace DifferInMasks

variable {list list' more more' : List Instruction}

theorem refl (list : List Instruction) : DifferInMasks list list where
  length := rfl
  each n i i' hi hi' := by
    obtain rfl : i = i' := Option.some.inj (hi.symm.trans hi')
    exact ⟨rfl, rfl, .inl rfl⟩

theorem append (h : DifferInMasks list list') (h' : DifferInMasks more more') :
    DifferInMasks (list ++ more) (list' ++ more') where
  length := by rw [List.length_append, List.length_append, h.length, h'.length]
  each n i i' hi hi' := by
    rcases getElem?_append_cases hi with ⟨inFront, here⟩ | ⟨m, rfl, here⟩
    · rw [List.getElem?_append_left (h.length ▸ inFront)] at hi'
      obtain ⟨op, taken, value⟩ := h.each n i i' here hi'
      exact ⟨op, taken, value.imp_right (Or.imp_right fun data => data.append more)⟩
    · rw [h.length, getElem?_append_add] at hi'
      obtain ⟨op, taken, value⟩ := h'.each m i i' here hi'
      exact ⟨op, taken, value.imp_right (Or.imp_right fun data => data.behind list)⟩

end DifferInMasks

/-- Loads right before a long mask hold its bytes. -/
theorem isMaskData_loads {values : List Int32} {length : Int32}
    (count : values.length = loadsOfMask length) (kind : MaskKind) (list : List Instruction) {n : Nat}
    (hn : n < values.length) :
    IsMaskData (values.map .int ++ .withValue (.mask kind .many) length :: list) n := by
  refine ⟨values.length, kind, length, ?_, hn, by omega⟩
  rw [List.getElem?_append_right (by simp)]
  simp

/-- A long mask with the loads that hold its bytes. -/
theorem differInMasks_loads {values values' : List Int32} {length : Int32}
    (count : values.length = loadsOfMask length) (count' : values'.length = loadsOfMask length)
    (kind : MaskKind) :
    DifferInMasks (values.map .int ++ [.withValue (.mask kind .many) length])
      (values'.map .int ++ [.withValue (.mask kind .many) length]) where
  length := by simp [count, count']
  each n i i' hi hi' := by
    have same : values'.length = values.length := count'.trans count.symm
    by_cases inside : n < values.length
    · rw [List.getElem?_append_left (by simpa using inside), List.getElem?_map] at hi
      rw [List.getElem?_append_left (by simpa [same] using inside), List.getElem?_map] at hi'
      obtain ⟨v, -, rfl⟩ := Option.map_eq_some_iff.mp hi
      obtain ⟨v', -, rfl⟩ := Option.map_eq_some_iff.mp hi'
      exact ⟨rfl, rfl, .inr (.inr (isMaskData_loads count kind [] inside))⟩
    · rw [List.getElem?_append_right (by simpa using inside), List.length_map] at hi
      rw [List.getElem?_append_right (by simpa [same] using inside), List.length_map, same] at hi'
      obtain rfl : i = i' := Option.some.inj (hi.symm.trans hi')
      exact ⟨rfl, rfl, .inl rfl⟩

/-- Lists that are remasked differ in nothing but what holds bytes of masks. -/
theorem Remasked.differInMasks {list list' : List Instruction} (h : Remasked list list') :
    DifferInMasks list list' := by
  induction h with
  | nil => exact .refl []
  | @same i list list' ordinary _ ih => exact (DifferInMasks.refl [i]).append ih
  | @inValue kind form list list' value value' few _ ih =>
    have mask : DifferInMasks [.withValue (.mask kind form) value]
        [.withValue (.mask kind form) value'] := by
      refine ⟨rfl, fun n i i' hi hi' => ?_⟩
      cases n with
      | zero => cases hi; cases hi'; exact ⟨rfl, rfl, .inr (.inl rfl)⟩
      | succ n => cases hi
    exact mask.append ih
  | @inLoads kind length values values' list list' many count count' _ ih =>
    simpa using (differInMasks_loads count count' kind).append ih

end CompactFont.Charstring
