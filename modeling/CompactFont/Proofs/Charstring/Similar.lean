import CompactFont.Proofs.Charstring.Remasked

/-!
# Courses of decoding that differ in masks

Decoding asks its instructions about nothing but the operands that wait, and the latest of them. Both
come after the last mask, so what came before it, and the mask itself, do not count: decoding does behind
other instructions what it does without them (`Progress.after`), as long as these do not end with the load
of an integer.

So two courses of decoding that differ at most in masks (`Progress.Similar`) stay so with each token,
given the same tokens and as many bytes for each mask: both fail alike, or go on alike. Where the glyph
ends, the instruction that ends it is the last one in both (`Progress.Finished`).
-/

namespace CompactFont.Charstring

namespace Progress

theorem instructions_make (p : Progress) (i : Instruction) :
    (p.make i).instructions = p.instructions ++ [i] := List.reverse_cons

/-- What is known if the instructions were made behind others. -/
def after (front : List Instruction) (p : Progress) : Progress :=
  { p with made := p.made ++ front.reverse }

/-- The list does not end with the load of an integer, so that there is nothing in it that could be taken
back. -/
def Sealed (front : List Instruction) : Prop := ∀ i, front.getLast? = some i → i.isInt = false

/-- A mask is not the load of an integer. -/
theorem sealed_masks (front : List Instruction) (kind : MaskKind) {bytes : List UInt8}
    (some : bytes ≠ []) (short : bytes.length < 2147483648) :
    Sealed (front ++ maskInstructions kind bytes) := by
  obtain ⟨loads, i, instructions, -, notInt, -⟩ := exists_maskInstructions_eq kind some short
  intro j hj
  rw [instructions, ← List.append_assoc, List.getLast?_concat] at hj
  cases hj
  exact notInt

/-- The instructions were all made since the last mask, and all operands that wait are among them. -/
def Waiting (made : List Instruction) (pending : Nat) : Prop :=
  pending ≤ made.length ∧ ∀ i ∈ made, i.Ordinary

theorem madeAdvance_waiting : MadeAdvance Waiting where
  push value h := ⟨Nat.succ_le_succ h.1, List.forall_mem_cons.mpr ⟨.load value, h.2⟩⟩
  plain operator h := ⟨Nat.le_succ_of_le h.1, List.forall_mem_cons.mpr ⟨.plain operator, h.2⟩⟩
  settle h := ⟨Nat.zero_le _, h.2⟩
  width _ h := by
    refine ⟨by rw [List.length_set]; exact h.1, fun i hi => ?_⟩
    rcases List.mem_or_eq_of_mem_set hi with hi | rfl
    · exact h.2 i hi
    · exact .width _
  pop _ h := ⟨Nat.sub_le_of_le_add h.1, (List.forall_mem_cons.mp h.2).2⟩

/-! ### Decoding behind other instructions -/

section

variable {p : Progress} (waiting : p.pending ≤ p.made.length) (front : List Instruction)

include waiting

theorem takeWidth_after : (p.after front).takeWidth = after front <$> p.takeWidth := by
  obtain ⟨made, _, _, _, _, pending, _, _⟩ := p
  cases pending with
  | zero => rfl
  | succ later =>
    have inside : later < made.length := waiting
    simp only [takeWidth, after, List.getElem?_append_left inside, List.getElem?_eq_getElem inside]
    split
    · rw [List.set_append_left _ _ inside]
      rfl
    · rfl

theorem takeWidthIf_after (condition : Bool) :
    (p.after front).takeWidthIf condition = after front <$> p.takeWidthIf condition := by
  cases condition with
  | true => exact takeWidth_after waiting front
  | false => rfl

theorem takeStemWidth_after : (p.after front).takeStemWidth = after front <$> p.takeStemWidth := by
  rw [takeStemWidth, takeWidth_after waiting, takeStemWidth]
  cases p.takeWidth <;> rfl

theorem stem_after (kind : Stem) : (p.after front).stem kind = after front <$> p.stem kind := by
  have operands : (p.after front).stemOperands = p.stemOperands := rfl
  have found : (p.after front).stemFound = p.stemFound := rfl
  simp only [stem, operands, found, takeStemWidth_after waiting front]
  split
  · split
    · rfl
    · cases p.takeStemWidth <;> rfl
  · rfl

theorem move_after (kind : Move) : (p.after front).move kind = after front <$> p.move kind := by
  have condition : ((p.after front).widthAllowed && (p.after front).moveHasWidth kind) =
      (p.widthAllowed && p.moveHasWidth kind) := rfl
  rw [move, move, condition, takeWidthIf_after waiting]
  cases p.takeWidthIf (p.widthAllowed && p.moveHasWidth kind) <;> rfl

theorem stemsForHintMask_after :
    (p.after front).stemsForHintMask = after front <$> p.stemsForHintMask := by
  have implied : (p.after front).implyVstem = p.implyVstem.after front := by
    have same : (p.after front).impliesVstem = p.impliesVstem := rfl
    unfold implyVstem
    rw [same]
    split <;> rfl
  have waiting : p.implyVstem.pending ≤ p.implyVstem.made.length := by
    unfold implyVstem
    split
    · exact Nat.le_succ_of_le waiting
    · exact waiting
  simp only [stemsForHintMask, implied]
  generalize p.implyVstem = r at waiting
  have stems : (r.after front).stems = r.stems := rfl
  have found : (r.after front).stemFound = r.stemFound := rfl
  have operands : (r.after front).stemOperands = r.stemOperands := rfl
  have entered : (r.after front).pathEntered = r.pathEntered := rfl
  simp only [stems, found, operands, entered, takeStemWidth_after waiting front]
  split
  · split
    · rfl
    · split
      · cases r.takeStemWidth <;> rfl
      · rfl
  · rfl

theorem stemsForMask_after (kind : MaskKind) :
    (p.after front).stemsForMask kind = after front <$> p.stemsForMask kind := by
  cases kind with
  | hint => exact stemsForHintMask_after waiting front
  | counter =>
    have stems : (p.after front).stems = p.stems := rfl
    have found : (p.after front).stemFound = p.stemFound := rfl
    simp only [stemsForMask, stemsForCounterMask, stems, found]
    split <;> rfl

end

/-- The latest instruction is one that was made behind the others, unless these end with the load of an
integer. -/
theorem takeCallOperand_after {front : List Instruction} (fixed : Sealed front) (p : Progress) :
    (p.after front).takeCallOperand =
      (fun taken => (taken.1, taken.2.after front)) <$> p.takeCallOperand := by
  obtain ⟨made, _, _, _, _, _, _, _⟩ := p
  cases made with
  | cons i made =>
    simp only [takeCallOperand, after, List.cons_append]
    split <;> rfl
  | nil =>
    simp only [takeCallOperand, after, List.nil_append]
    split
    · rename_i i made hmade
      have last : front.getLast? = some i := by rw [← List.head?_reverse, hmade, List.head?_cons]
      rw [if_neg (by simp [fixed i last])]
      rfl
    · rfl

/-! ### Courses that stay similar -/

/-- Two courses of decoding differ at most in masks that were made before the operands that wait. -/
inductive Similar : Progress → Progress → Prop where
  /-- The same was made behind lists with other masks. -/
  | behind {p : Progress} {front front' : List Instruction} (waiting : Waiting p.made p.pending)
      (remasked : Remasked front front') (fixed : Sealed front) (fixed' : Sealed front') :
      Similar (p.after front) (p.after front')

/-- Two courses of decoding came to the end of the glyph, and differ at most in masks. -/
inductive Finished : Progress → Progress → Prop where
  /-- The end of the glyph was made last. -/
  | endchar {p p' : Progress} (similar : Similar p p') :
      Finished (p.make (.plain .endchar)).settle (p'.make (.plain .endchar)).settle

namespace Similar

variable {p p' : Progress}

/-- Nothing was made yet. -/
theorem start : Similar {} {} :=
  @behind {} [] [] ⟨Nat.le_refl 0, List.forall_mem_nil _⟩ .nil nofun nofun

/-- What is done alike behind other instructions and without them, and goes on, stays similar. -/
theorem related (h : Similar p p') {f : Progress → Except FontFault Progress}
    (alike : ∀ {p : Progress} (front : List Instruction), p.pending ≤ p.made.length →
      f (p.after front) = after front <$> f p)
    (kept : ∀ {p q : Progress}, f p = .ok q → Waiting p.made p.pending → Waiting q.made q.pending) :
    Related Similar (f p) (f p') := by
  cases h with
  | @behind p front front' waiting remasked fixed fixed' =>
    rw [alike front waiting.1, alike front' waiting.1]
    exact .of_same (f p) fun q hq => .behind (kept hq waiting) remasked fixed fixed'

theorem operand (h : Similar p p') (value : Operand) :
    Similar (p.operand value) (p'.operand value) := by
  cases h with
  | @behind p front front' waiting remasked fixed fixed' =>
    have pushed : Waiting (p.operand value).made (p.operand value).pending :=
      madeAdvance_waiting.push value waiting
    exact .behind pushed remasked fixed fixed'

theorem draw (h : Similar p p') (kind : Draw) : Similar (p.draw kind) (p'.draw kind) := by
  cases h with
  | @behind p front front' waiting remasked fixed fixed' =>
    have drawn : Waiting (p.draw kind).made (p.draw kind).pending :=
      madeAdvance_waiting.settle (madeAdvance_waiting.plain rfl waiting)
    exact .behind drawn remasked fixed fixed'

theorem escaped (h : Similar p p') (operator : Escaped) :
    Related Similar (p.escaped operator) (p'.escaped operator) :=
  h.related (f := (·.escaped operator)) (fun _ _ => by cases operator <;> rfl)
    madeAdvance_waiting.escaped

theorem stem (h : Similar p p') (kind : Stem) : Related Similar (p.stem kind) (p'.stem kind) :=
  h.related (f := (·.stem kind)) (fun front waiting => stem_after waiting front kind)
    madeAdvance_waiting.stem

theorem move (h : Similar p p') (kind : Move) : Related Similar (p.move kind) (p'.move kind) :=
  h.related (f := (·.move kind)) (fun front waiting => move_after waiting front kind)
    madeAdvance_waiting.move

theorem stemsForMask (h : Similar p p') (kind : MaskKind) :
    Related Similar (p.stemsForMask kind) (p'.stemsForMask kind) :=
  h.related (f := (·.stemsForMask kind)) (fun front waiting => stemsForMask_after waiting front kind)
    madeAdvance_waiting.stemsForMask

theorem endchar (h : Similar p p') : Related Finished p.endchar p'.endchar := by
  have condition : (p.widthAllowed && p.pending % 2 == 1) =
      (p'.widthAllowed && p'.pending % 2 == 1) := by
    cases h
    rfl
  have width : Related Similar (p.takeWidthIf (p'.widthAllowed && p'.pending % 2 == 1))
      (p'.takeWidthIf (p'.widthAllowed && p'.pending % 2 == 1)) :=
    h.related (f := (·.takeWidthIf _)) (fun front waiting => takeWidthIf_after waiting front _)
      madeAdvance_waiting.takeWidthIf
  rw [Progress.endchar, Progress.endchar, condition]
  exact width.bind fun q q' _ _ similar => .ok (.endchar similar)

theorem takeCallOperand (h : Similar p p') :
    Related (fun taken taken' => taken.1 = taken'.1 ∧ Similar taken.2 taken'.2) p.takeCallOperand
      p'.takeCallOperand := by
  cases h with
  | @behind p front front' waiting remasked fixed fixed' =>
    rw [takeCallOperand_after fixed, takeCallOperand_after fixed']
    exact .of_same p.takeCallOperand fun ⟨operand, q⟩ hq =>
      ⟨rfl, .behind (madeAdvance_waiting.takeCallOperand hq waiting) remasked fixed fixed'⟩

/-- Masks take as many bytes. -/
theorem maskBytes (h : Similar p p') {rest rest' : List UInt8} (same : rest.length = rest'.length) :
    Related (fun read read' => read.1.length = read'.1.length ∧ read.1.length < 2147483648 ∧
        ∃ n, read.2 = rest.drop n ∧ read'.2 = rest'.drop n)
      (p.maskBytes rest) (p'.maskBytes rest') := by
  have length : p.maskLength = p'.maskLength := by
    cases h
    rfl
  rw [Progress.maskBytes, Progress.maskBytes, length]
  split
  · rename_i short
    simp only [Reader.take, List.length_take, same]
    split
    · rename_i enough
      exact .ok ⟨by simp [same], by simpa [same, enough] using short, _, rfl, rfl⟩
    · exact .error _
  · exact .error _

/-- The instructions that were made so far are remasked. -/
theorem remasked_instructions (h : Similar p p') : Remasked p.instructions p'.instructions := by
  cases h with
  | @behind p front front' waiting remasked _ _ =>
    have made (front : List Instruction) :
        (p.after front).instructions = front ++ p.made.reverse := by
      simp [instructions, Progress.after]
    rw [made, made]
    exact remasked.append (.of_ordinary fun i hi => waiting.2 i (List.mem_reverse.mp hi))

/-- A mask is made of other bytes, as many of them. -/
theorem mask (h : Similar p p') (kind : MaskKind) {bytes bytes' : List UInt8}
    (same : bytes.length = bytes'.length) (short : bytes.length < 2147483648) :
    Similar (p.mask kind bytes) (p'.mask kind bytes') := by
  by_cases none : bytes = []
  · subst none
    obtain rfl : bytes' = [] := List.length_eq_zero_iff.mp same.symm
    cases h with
    | @behind p front front' waiting remasked fixed fixed' =>
      have settled : Waiting p.settle.made p.settle.pending := madeAdvance_waiting.settle waiting
      exact .behind settled remasked fixed fixed'
  · have none' : bytes' ≠ [] := fun is => none (List.length_eq_zero_iff.mp (by simp [same, is]))
    have masked (p : Progress) {bytes : List UInt8} (some : bytes ≠ []) :
        p.mask kind bytes =
          after (p.instructions ++ maskInstructions kind bytes) { p with made := [] }.settle := by
      rw [Progress.mask, if_neg (by simpa using some)]
      simp [after, instructions, settle]
    have rest : { p with made := [] }.settle = { p' with made := [] }.settle := by
      cases h
      rfl
    rw [masked p none, masked p' none', rest]
    exact .behind ⟨Nat.le_refl 0, List.forall_mem_nil _⟩
      (h.remasked_instructions.append (.of_masks kind same none short))
      (sealed_masks _ kind none short) (sealed_masks _ kind none' (same ▸ short))

end Similar

end Progress

end CompactFont.Charstring
