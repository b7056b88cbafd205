import CompactFont.Outline.ArgStack
import CompactFont.Proofs.Charstring.MaskLayout

/-!
# Operands that wait, within limits

Operands wait on a stack until an operator clears it, and charstrings are supposed to keep to limits:
no operator that clears the stack comes upon more than 48 operands, and no more than 96 stem hints are
declared. A tally is kept of an execution for this (`Tally`, `Execution.Legal`). A mask without stem
hints makes no instruction, so it clears nothing.

The instructions that are made have more on the stack than that: a mask of more than four bytes is held
in loads, and these come on top of the operands that still wait. With 96 stem hints there are three of
them at most, and the stack has two slots more than operands may wait. So there is room for all
(`fits_of_decode`), unless as many operands as may wait do so before a mask of more than eight bytes
and nothing clears the stack between them (`Tally.Crowded`). Before a hint mask that directly follows
stem hints, the stems that are put in clear it; before a counter mask nothing does.

The argument goes along the execution: what was made fits, and has no more on the stack than the tally
says (`Progress.Fitting`).
-/

namespace CompactFont.Charstring

/-- How many operands may wait for an operator that clears the stack. -/
def operandLimit : Nat := 48

/-- How many stem hints may be declared. -/
def stemLimit : Nat := 96

/-! ### The tally of an execution -/

/-- How far a charstring is, if it is still declaring stem hints. -/
inductive Opening where
  /-- No operator was executed. -/
  | start
  /-- Only stem operators were executed; this is the latest one. -/
  | stems (latest : Stem)
  /-- An operator of another kind was executed. -/
  | past
  deriving DecidableEq

/-- How far it is after a token. -/
def Opening.after (o : Opening) : Token → Opening
  | .operand _ | .reserved | .ret | .call _ => o
  | .stem kind => if o = .past then .past else .stems kind
  | .escaped _ | .mask _ | .move _ | .draw _ | .endchar => .past

/-- The token clears the stack. A mask does so if it has bytes, which are those after its own. -/
def Token.clears (taken : List UInt8) : Token → Bool
  | .stem _ | .move _ | .draw _ | .escaped (.draw _) | .endchar => true
  | .mask _ => !taken.tail.isEmpty
  | .operand _ | .reserved | .escaped _ | .ret | .call _ => false

/-- What is counted along an execution. -/
structure Tally where
  /-- The operands since the latest operator that clears the stack. -/
  waiting : Nat := 0
  /-- How far the charstring is. -/
  opening : Opening := .start

namespace Tally

/-- The tally after a token. -/
def after (t : Tally) (token : Token) (taken : List UInt8) : Tally where
  waiting :=
    if token.clears taken then 0
    else match token with
      | .operand _ => t.waiting + 1
      | _ => t.waiting
  opening := t.opening.after token

/-- The tally in a subroutine that is called; the operand of the call does not wait any more. -/
def called (t : Tally) : Tally := { t with waiting := t.waiting - 1 }

/-- Operands are within the limit where a token clears the stack. -/
def Legal (t : Tally) (token : Token) (taken : List UInt8) : Prop :=
  token.clears taken = true → t.waiting ≤ operandLimit

/-- A hint mask would directly follow stem hints that leave vertical stems to it. -/
def ImpliesVstem (t : Tally) : Prop := ∃ kind, t.opening = .stems kind ∧ kind ≠ .vstem

/-- A mask of more than eight bytes comes when as many operands wait as may, and no vertical stems are
put in that would clear the stack. -/
structure Crowded (t : Tally) (token : Token) (taken : List UInt8) : Prop where
  /-- More than eight bytes follow the operator. -/
  long : 8 < taken.tail.length
  /-- As many operands wait as may. -/
  full : t.waiting = operandLimit
  /-- No vertical stems are put in, as there are none before a counter mask. -/
  bare : token = .mask .counter ∨ token = .mask .hint ∧ ¬t.ImpliesVstem

instance (t : Tally) (token : Token) (taken : List UInt8) : Decidable (t.Legal token taken) :=
  inferInstanceAs (Decidable (_ → _))

instance (t : Tally) : Decidable t.ImpliesVstem :=
  match h : t.opening with
  | .stems kind =>
    decidable_of_iff (kind ≠ .vstem)
      ⟨fun other => ⟨kind, h, other⟩, fun ⟨_, is, other⟩ => by cases h.symm.trans is; exact other⟩
  | .start | .past => .isFalse fun ⟨_, is, _⟩ => by cases h.symm.trans is

instance (t : Tally) (token : Token) (taken : List UInt8) : Decidable (t.Crowded token taken) :=
  decidable_of_iff (8 < taken.tail.length ∧ t.waiting = operandLimit ∧
      (token = .mask .counter ∨ token = .mask .hint ∧ ¬t.ImpliesVstem))
    ⟨fun ⟨long, full, bare⟩ => ⟨long, full, bare⟩, fun h => ⟨h.long, h.full, h.bare⟩⟩

end Tally

namespace Execution

/-- The tally after what is executed. -/
def tally : Execution → Tally → Tally
  | .stop, t => t
  | .token first taken next, t => next.tally (t.after first taken)
  | .call _ callee next, t => next.tally (callee.tally t.called)

/-- All tokens that are executed, those of subroutines too, have a property that may depend on the
tally before them. -/
def Throughout (P : Tally → Token → List UInt8 → Prop) : Execution → Tally → Prop
  | .stop, _ => True
  | .token first taken next, t => P t first taken ∧ next.Throughout P (t.after first taken)
  | .call _ callee next, t =>
    callee.Throughout P t.called ∧ next.Throughout P (callee.tally t.called)

instance decidableThroughout {P : Tally → Token → List UInt8 → Prop}
    [∀ t token taken, Decidable (P t token taken)] :
    (x : Execution) → (t : Tally) → Decidable (x.Throughout P t)
  | .stop, _ => .isTrue trivial
  | .token _ _ next, _ =>
    have := decidableThroughout (P := P) next
    inferInstanceAs (Decidable (_ ∧ _))
  | .call _ callee next, _ =>
    have := decidableThroughout (P := P) callee
    have := decidableThroughout (P := P) next
    inferInstanceAs (Decidable (_ ∧ _))

/-- Operands keep to the limit, at each operator that clears the stack and at the end. -/
def Legal (x : Execution) : Prop :=
  x.Throughout Tally.Legal {} ∧ (x.tally {}).waiting ≤ operandLimit

/-- No mask is crowded. -/
def Uncrowded (x : Execution) : Prop :=
  x.Throughout (fun t token taken => ¬t.Crowded token taken) {}

instance (x : Execution) : Decidable x.Legal := inferInstanceAs (Decidable (_ ∧ _))

instance (x : Execution) : Decidable x.Uncrowded := decidableThroughout x _

end Execution

/-! ### Instructions and the stack -/

/-- The instruction gives up all operands. -/
def Instruction.clears (i : Instruction) : Bool :=
  match i.op with
  | .load _ | .width | .arithmetic _ => false
  | _ => true

/-- How many operands are on the stack after instructions, the latest of these first, if none of them
pushes more than one. -/
def depthAfter : List Instruction → Nat
  | [] => 0
  | i :: before =>
    if i.clears then 0 else if i.op.isLoad then depthAfter before + 1 else depthAfter before

/-- There is room for all operands where they are given up. -/
def Fits : List Instruction → Prop
  | [] => True
  | i :: before => (i.clears = true → depthAfter before ≤ ArgStack.capacity) ∧ Fits before

section

variable {made : List Instruction} {i : Instruction}

theorem depthAfter_of_clears (h : i.clears = true) (made : List Instruction) :
    depthAfter (i :: made) = 0 := if_pos h

theorem depthAfter_of_isInt (h : i.isInt = true) (made : List Instruction) :
    depthAfter (i :: made) = depthAfter made + 1 := by
  rw [Instruction.eq_int_of_isInt h]
  rfl

theorem fits_of_not_clears (h : i.clears = false) (fits : Fits made) : Fits (i :: made) :=
  ⟨fun clears => absurd (h.symm.trans clears) Bool.false_ne_true, fits⟩

/-- If there is room after an instruction, there was room before it. -/
theorem Fits.room_before (fits : Fits (i :: made)) (room : depthAfter (i :: made) ≤ ArgStack.capacity) :
    depthAfter made ≤ ArgStack.capacity := by
  by_cases clears : i.clears = true
  · exact fits.1 clears
  · rw [depthAfter, if_neg clears] at room
    split at room
    · exact Nat.le_of_succ_le room
    · exact room

/-- Loads of integers come on top of what is on the stack. -/
theorem depthAfter_append {loads : List Instruction} (h : ∀ i ∈ loads, i.isInt = true)
    (made : List Instruction) : depthAfter (loads ++ made) = loads.length + depthAfter made := by
  induction loads with
  | nil => rw [List.nil_append, List.length_nil, Nat.zero_add]
  | cons i loads ih =>
    obtain ⟨int, h⟩ := List.forall_mem_cons.mp h
    rw [List.cons_append, depthAfter_of_isInt int, ih h, List.length_cons]
    omega

theorem fits_append {loads : List Instruction} (h : ∀ i ∈ loads, i.isInt = true)
    (fits : Fits made) : Fits (loads ++ made) := by
  induction loads with
  | nil => exact fits
  | cons i loads ih =>
    obtain ⟨int, h⟩ := List.forall_mem_cons.mp h
    refine fits_of_not_clears ?_ (ih h)
    rw [Instruction.eq_int_of_isInt int]
    rfl

/-- A load that becomes the width is not on the stack any more. -/
theorem depthAfter_set_le {k : Nat} {n m : Int32} (h : made[k]? = some (.int n)) :
    depthAfter (made.set k (.withValue .width m)) ≤ depthAfter made := by
  induction made generalizing k with
  | nil => cases h
  | cons i made ih =>
    cases k with
    | zero =>
      cases h
      exact Nat.le_succ _
    | succ k =>
      have lower := ih h
      rw [List.set_cons_succ, depthAfter, depthAfter]
      split
      · exact Nat.le_refl _
      · split
        · exact Nat.succ_le_succ lower
        · exact lower

theorem Fits.set {k : Nat} {n m : Int32} (fits : Fits made) (h : made[k]? = some (.int n)) :
    Fits (made.set k (.withValue .width m)) := by
  induction made generalizing k with
  | nil => cases h
  | cons i made ih =>
    cases k with
    | zero => exact fits_of_not_clears rfl fits.2
    | succ k =>
      rw [List.set_cons_succ]
      exact ⟨fun clears => Nat.le_trans (depthAfter_set_le h) (fits.1 clears), ih fits.2 h⟩

end

/-! ### What decoding keeps -/

namespace Progress

/-- A mask fits on top of what is on the stack, with a load for each four of its bytes if they are more
than four. -/
theorem fits_maskInstructions {made : List Instruction} {bytes : List UInt8} (kind : MaskKind)
    (some : bytes ≠ []) (fits : Fits made)
    (room : depthAfter made ≤ ArgStack.capacity)
    (loads : 4 < bytes.length →
      depthAfter made + (bytes.length + 3) / 4 ≤ ArgStack.capacity) :
    Fits ((maskInstructions kind bytes).reverse ++ made) ∧
      depthAfter ((maskInstructions kind bytes).reverse ++ made) = 0 := by
  by_cases many : 4 < bytes.length
  · let values := (maskChunks bytes).map maskValue
    have ints : ∀ i ∈ (values.map Instruction.int).reverse, i.isInt = true := by
      intro i hi
      obtain ⟨value, -, rfl⟩ := List.mem_map.mp (List.mem_reverse.mp hi)
      rfl
    have depth : depthAfter ((values.map Instruction.int).reverse ++ made) ≤ ArgStack.capacity := by
      have count : (values.map Instruction.int).reverse.length = (bytes.length + 3) / 4 := by
        rw [List.length_reverse, List.length_map, List.length_map, length_maskChunks]
      rw [depthAfter_append ints, count, Nat.add_comm]
      exact loads many
    rw [maskInstructions_of_many kind many, List.reverse_append, List.reverse_singleton,
      List.append_assoc, List.singleton_append]
    exact ⟨⟨fun _ => depth, fits_append ints fits⟩, rfl⟩
  · rw [(maskInstructions_of_few kind some (Nat.not_lt.mp many)).2]
    exact ⟨⟨fun _ => room, fits⟩, rfl⟩

/-- What was made fits, and what is known agrees with a tally. -/
structure Fitting (p : Progress) (t : Tally) : Prop where
  /-- What was made fits. -/
  fits : Fits p.made
  /-- It has no more on the stack than there are operands that wait. -/
  depth_le : depthAfter p.made ≤ t.waiting
  /-- Operands count as stem hints until there is an operator of another kind. -/
  counts : t.opening ≠ .past → p.countsStems = true
  /-- The latest stem operator is known. -/
  latest : ∀ kind, t.opening = .stems kind → p.stemFound = true ∧ p.latestStem = some kind

theorem fitting_start : Fitting {} {} := ⟨trivial, Nat.le_refl 0, fun _ => rfl, nofun⟩

/-- What was made has no more on the stack than before, and fits if it did. -/
structure Lowers (p q : Progress) : Prop where
  /-- It fits if it did. -/
  fits : Fits p.made → Fits q.made
  /-- It has no more on the stack. -/
  depth_le : depthAfter q.made ≤ depthAfter p.made

variable {p q : Progress} {t : Tally}

theorem Lowers.refl (p : Progress) : p.Lowers p := ⟨id, Nat.le_refl _⟩

theorem lowers_takeWidth (h : p.takeWidth = .ok q) : p.Lowers q := by
  obtain ⟨later, n, -, load, rfl⟩ := takeWidth_eq_ok h
  exact ⟨fun fits => fits.set load, depthAfter_set_le load⟩

theorem lowers_takeWidthIf {condition : Bool} (h : p.takeWidthIf condition = .ok q) :
    p.Lowers q := by
  rcases takeWidthIf_eq_ok h with ⟨-, h⟩ | ⟨-, rfl⟩
  · exact lowers_takeWidth h
  · exact .refl q

theorem lowers_takeStemWidth (h : p.takeStemWidth = .ok q) : p.Lowers q := by
  obtain ⟨r, hr, rfl⟩ := takeStemWidth_eq_ok h
  exact ⟨(lowers_takeWidth hr).fits, (lowers_takeWidth hr).depth_le⟩

/-- Before a mask, vertical stems are put in, or at most the width is taken off the stack. -/
theorem stemsForMask_made {kind : MaskKind} (h : p.stemsForMask kind = .ok q) :
    (kind = .hint ∧ p.impliesVstem = true ∧ q.stems ≠ 0 ∧
        q.made = .plain (.stem .vstem) :: p.made) ∨
      ¬(kind = .hint ∧ p.impliesVstem = true) ∧ p.Lowers q := by
  cases kind with
  | counter =>
    refine .inr ⟨fun h => MaskKind.noConfusion h.1, ?_⟩
    simp only [stemsForMask, stemsForCounterMask] at h
    split at h
    · cases h
    · cases h
      exact ⟨id, Nat.le_refl _⟩
  | hint =>
    by_cases implies : p.impliesVstem = true
    · have implied : p.implyVstem.stemFound = true := by
        simp only [impliesVstem, Bool.and_eq_true] at implies
        unfold implyVstem
        split
        · exact implies.1.1
        · exact implies.1.1
      rcases stemsForHintMask_eq_ok h with ⟨some, rfl⟩ | ⟨-, notFound, -⟩
      · refine .inl ⟨rfl, implies, some, ?_⟩
        rw [implyVstem, if_pos implies]
        rfl
      · rw [implied] at notFound
        cases notFound
    · refine .inr ⟨fun h => implies h.2, ?_⟩
      have same : p.implyVstem = p := if_neg implies
      rcases stemsForHintMask_eq_ok h with ⟨-, rfl⟩ | ⟨-, -, r, hr, rfl⟩
      · rw [same]
        exact .refl p
      · rw [same] at hr
        have lowers : p.Lowers r := by
          rcases hr with ⟨-, -, hr⟩ | ⟨-, rfl⟩
          · exact lowers_takeStemWidth hr
          · exact .refl r
        exact ⟨lowers.fits, lowers.depth_le⟩

namespace Fitting

/-- After an operator of another kind than stem operators, nothing is known of these. -/
theorem of_past (fits : Fits q.made) {n : Nat} (depth_le : depthAfter q.made ≤ n) :
    q.Fitting ⟨n, .past⟩ := ⟨fits, depth_le, nofun, nofun⟩

/-- An operator clears what is on the stack, and there is room for that. -/
theorem clear (h : p.Fitting t) (lowers : p.Lowers q) (legal : t.waiting ≤ operandLimit)
    {i : Instruction} (clears : i.clears = true) :
    Fits (i :: q.made) ∧ depthAfter (i :: q.made) = 0 := by
  have room : depthAfter q.made ≤ ArgStack.capacity :=
    Nat.le_trans (Nat.le_trans lowers.depth_le h.depth_le) (Nat.le_trans legal (by decide))
  exact ⟨⟨fun _ => room, lowers.fits h.fits⟩, depthAfter_of_clears clears _⟩

theorem impliesVstem (h : p.Fitting t) (implies : t.ImpliesVstem) : p.impliesVstem = true := by
  obtain ⟨kind, opening, other⟩ := implies
  obtain ⟨found, latest⟩ := h.latest kind opening
  have counts := h.counts (by rw [opening]; nofun)
  cases kind with
  | vstem => exact absurd rfl other
  | _ => simp [Progress.impliesVstem, found, counts, latest]

/-- A token that is no mask. -/
theorem perform (h : p.Fitting t) {sets : SubroutineSets} {token : Token} {taken rest : List UInt8}
    {next : Next} (noCall : token.isCall = false) (noMask : ∀ kind, token ≠ .mask kind)
    (ht : Charstring.perform sets none token p rest = .ok next) (legal : t.Legal token taken) :
    next.progress.Fitting (t.after token taken) := by
  cases token with
  | operand value =>
    cases ht
    refine ⟨⟨?_, h.fits⟩, ?_, h.counts, h.latest⟩
    · cases value <;> nofun
    · cases value <;> exact Nat.succ_le_succ h.depth_le
  | reserved =>
    cases ht
    exact h
  | escaped operator =>
    obtain ⟨q, hq, rfl⟩ := map_eq_ok.mp ht
    cases operator with
    | draw kind =>
      cases hq
      obtain ⟨fits, depth⟩ := h.clear (.refl p) (legal rfl) (i := .plain (.draw kind)) rfl
      exact of_past fits (Nat.le_of_eq depth)
    | arithmetic kind =>
      cases hq
      exact of_past (q := (p.make (.plain (.arithmetic kind))).settle) ⟨nofun, h.fits⟩ h.depth_le
    | undefined => cases hq
    | unknown =>
      cases hq
      exact of_past (q := p.settle) h.fits h.depth_le
  | stem kind =>
    obtain ⟨q, hq, rfl⟩ := map_eq_ok.mp ht
    obtain ⟨r, hr, rfl⟩ := stem_eq_ok hq
    have lowers : p.Lowers r ∧ r.countsStems = p.countsStems := by
      rcases hr with ⟨-, -, hr⟩ | ⟨-, rfl⟩
      · refine ⟨lowers_takeStemWidth hr, ?_⟩
        obtain ⟨s, hs, rfl⟩ := takeStemWidth_eq_ok hr
        obtain ⟨_, _, -, -, rfl⟩ := takeWidth_eq_ok hs
        rfl
      · exact ⟨.refl r, rfl⟩
    obtain ⟨fits, depth⟩ := h.clear lowers.1 (legal rfl) (i := .plain (.stem kind)) rfl
    by_cases past : t.opening = .past
    · have opening : t.opening.after (.stem kind) = .past := if_pos past
      refine ⟨fits, Nat.le_of_eq depth, fun other => absurd opening other, fun kind' is => ?_⟩
      cases opening.symm.trans is
    · have opening : t.opening.after (.stem kind) = .stems kind := if_neg past
      refine ⟨fits, Nat.le_of_eq depth, fun _ => lowers.2.trans (h.counts past), fun kind' is => ?_⟩
      cases opening.symm.trans is
      exact ⟨rfl, rfl⟩
  | move kind =>
    obtain ⟨q, hq, rfl⟩ := map_eq_ok.mp ht
    obtain ⟨r, hr, hq⟩ := bind_eq_ok.mp hq
    cases hq
    obtain ⟨fits, depth⟩ :=
      h.clear (lowers_takeWidthIf hr) (legal rfl) (i := .plain (.move kind)) rfl
    exact of_past fits (Nat.le_of_eq depth)
  | draw kind =>
    cases ht
    obtain ⟨fits, depth⟩ := h.clear (.refl p) (legal rfl) (i := .plain (.draw kind)) rfl
    exact of_past fits (Nat.le_of_eq depth)
  | mask kind => exact absurd rfl (noMask kind)
  | endchar =>
    obtain ⟨q, hq, rfl⟩ := map_eq_ok.mp ht
    obtain ⟨r, hr, hq⟩ := bind_eq_ok.mp hq
    cases hq
    obtain ⟨fits, depth⟩ := h.clear (lowers_takeWidthIf hr) (legal rfl) (i := .plain .endchar) rfl
    exact of_past fits (Nat.le_of_eq depth)
  | ret =>
    cases ht
    exact h
  | call scope => cases noCall

/-- A mask, whose bytes follow its own. -/
theorem mask (h : p.Fitting t) {kind : MaskKind} {b : UInt8} {bytes : List UInt8}
    (hq : p.stemsForMask kind = .ok q) (length : bytes.length = q.maskLength)
    (stems : q.stems ≤ stemLimit) (legal : t.Legal (.mask kind) (b :: bytes))
    (uncrowded : ¬t.Crowded (.mask kind) (b :: bytes)) :
    (q.mask kind bytes).Fitting (t.after (.mask kind) (b :: bytes)) := by
  have few : bytes.length ≤ 12 := by
    change q.stems ≤ 96 at stems
    rw [length, maskLength]
    omega
  have limit : operandLimit = 48 := rfl
  have capacity : ArgStack.capacity = 50 := rfl
  by_cases none : bytes = []
  · subst none
    rcases stemsForMask_made hq with ⟨-, -, some, -⟩ | ⟨-, lowers⟩
    · rw [maskLength, List.length_nil] at length
      omega
    · exact of_past (q := q.settle) (lowers.fits h.fits) (Nat.le_trans lowers.depth_le h.depth_le)
  · have some : bytes.isEmpty = false := List.isEmpty_eq_false_iff.mpr none
    have waiting : t.waiting ≤ operandLimit := legal (by simp [Token.clears, some])
    have after : t.after (.mask kind) (b :: bytes) = ⟨0, .past⟩ := by
      simp [Tally.after, Token.clears, some, Opening.after]
    have made : q.mask kind bytes =
        { q with made := (maskInstructions kind bytes).reverse ++ q.made }.settle := by
      simp [Progress.mask, some]
    rw [after, made]
    have kept : Fits q.made ∧ depthAfter q.made + (bytes.length + 3) / 4 ≤ ArgStack.capacity := by
      have lower := h.depth_le
      rcases stemsForMask_made hq with ⟨-, -, -, hmade⟩ | ⟨bare, lowers⟩
      · rw [hmade]
        obtain ⟨fits, depth⟩ := h.clear (.refl p) waiting (i := .plain (.stem .vstem)) rfl
        exact ⟨fits, by rw [depth]; omega⟩
      · refine ⟨lowers.fits h.fits, ?_⟩
        have lower' := lowers.depth_le
        by_cases long : 8 < bytes.length
        · have notFull : t.waiting ≠ operandLimit := fun full => uncrowded ⟨long, full, ?_⟩
          · omega
          · cases kind with
            | counter => exact .inl rfl
            | hint => exact .inr ⟨rfl, fun implies => bare ⟨rfl, h.impliesVstem implies⟩⟩
        · omega
    obtain ⟨fits, depth⟩ := fits_maskInstructions kind none kept.1 (by omega) fun _ => kept.2
    exact of_past fits (Nat.le_of_eq depth)

/-- The operand of a call does not wait any more. -/
theorem takeCallOperand (h : p.Fitting t) {operand : Int32}
    (hq : p.takeCallOperand = .ok (operand, q)) : q.Fitting t.called := by
  obtain ⟨i, made, hmade, int, -, rfl⟩ := takeCallOperand_eq_ok hq
  have depth := h.depth_le
  rw [hmade, depthAfter_of_isInt int] at depth
  exact ⟨(hmade ▸ h.fits).2, Nat.le_sub_of_add_le depth, h.counts, h.latest⟩

end Fitting

/-- Stem hints that were declared stay so. -/
theorem invariant_stems (n : Nat) : Invariant fun p => n ≤ p.stems := by
  have more (p : Progress) : p.stems ≤ p.countStems.stems := Nat.le_add_right ..
  refine
    { operand := fun _ h => h, escaped := ?_, stem := ?_, move := ?_, draw := fun _ h => h,
      endchar := ?_, takeCallOperand := ?_, mask := ?_ }
  · intro p q operator hq h
    cases operator <;> cases hq <;> exact h
  · intro p q kind hq h
    obtain ⟨r, hr, rfl⟩ := stem_eq_ok hq
    refine Nat.le_trans h (Nat.le_trans (Nat.le_of_eq ?_) (more r))
    rcases hr with ⟨-, -, hr⟩ | ⟨-, rfl⟩
    · obtain ⟨s, hs, rfl⟩ := takeStemWidth_eq_ok hr
      exact (stems_of_takeWidth hs).symm
    · rfl
  · intro p q kind hq h
    obtain ⟨r, hwidth, hq⟩ := bind_eq_ok.mp hq
    cases hq
    exact Nat.le_trans h (Nat.le_of_eq (stems_of_takeWidthIf hwidth).symm)
  · intro p q hq h
    obtain ⟨r, hwidth, hq⟩ := bind_eq_ok.mp hq
    cases hq
    exact Nat.le_trans h (Nat.le_of_eq (stems_of_takeWidthIf hwidth).symm)
  · intro p q operand hq h
    obtain ⟨i, made, -, -, -, rfl⟩ := takeCallOperand_eq_ok hq
    exact h
  · intro p q kind bytes hq _ h
    have kept : n ≤ q.stems := by
      cases kind with
      | hint =>
        have implied : n ≤ p.implyVstem.stems := by
          refine Nat.le_trans h ?_
          unfold implyVstem
          split
          · exact more p
          · exact Nat.le_refl _
        rcases stemsForHintMask_eq_ok hq with ⟨-, rfl⟩ | ⟨none, -⟩
        · exact implied
        · rw [none] at implied
          exact Nat.le_trans implied (Nat.zero_le _)
      | counter =>
        simp only [stemsForMask, stemsForCounterMask] at hq
        split at hq
        · cases hq
        · cases hq
          exact Nat.le_trans h (more p)
    exact Nat.le_trans kept (Nat.le_of_eq (frozen_mask q kind bytes).stems.symm)

end Progress

/-- What is executed keeps to the tally, if its operands and stem hints keep to their limits and no
mask is crowded. -/
theorem Executes.fitting {sets : SubroutineSets} {calls : Nat} {bytes : List UInt8}
    {p q : Progress} {x : Execution} {e : Ending} {t : Tally}
    (hx : Executes sets calls bytes p x e q) (h : p.Fitting t) (legal : x.Throughout Tally.Legal t)
    (uncrowded : x.Throughout (fun t token taken => ¬t.Crowded token taken) t)
    (stems : q.stems ≤ stemLimit) : q.Fitting (x.tally t) := by
  induction hx generalizing t with
  | exhausted => exact h
  | @go calls b bytes taken rest left token p q r x e read noCall performed split next ih =>
    refine ih ?_ legal.2 uncrowded.2 stems
    by_cases isMask : ∃ kind, token = .mask kind
    · obtain ⟨kind, rfl⟩ := isMask
      obtain ⟨q', mask, left', hq, hbytes, hnext⟩ := perform_mask_eq_ok performed
      cases hnext
      obtain ⟨length, -, hrest⟩ := Progress.maskBytes_eq_ok hbytes
      have taken' : taken = b :: mask := by
        rw [Token.eq_of_readAfter_mask read] at hrest
        rw [hrest, ← List.cons_append] at split
        exact (List.append_cancel_right split).symm
      subst taken'
      have few : q'.stems ≤ stemLimit := by
        have more := (Progress.invariant_stems q'.stems).decodeNested
          (decodeNested_of_executes next) (Nat.le_of_eq (Progress.frozen_mask q' kind mask).stems.symm)
        exact Nat.le_trans more stems
      exact h.mask hq length few legal.1 uncrowded.1
    · exact h.perform noCall (fun kind is => isMask ⟨kind, is⟩) performed legal.1
  | @stop calls b bytes taken rest token p q e read noCall performed split =>
    have noMask : ∀ kind, token ≠ .mask kind := by
      rintro kind rfl
      rcases (perform_eq_stop noCall performed).1 with ⟨is, -⟩ | ⟨is, -, -⟩ <;> cases is
    exact h.perform noCall noMask performed legal.1
  | callBack read split popped known found callee back next ihCallee ihNext =>
    have few := (Progress.invariant_stems _).decodeNested (decodeNested_of_executes next)
      (Nat.le_refl _)
    exact ihNext (ihCallee (h.takeCallOperand popped) legal.1 uncrowded.1 (Nat.le_trans few stems))
      legal.2 uncrowded.2 stems
  | callFinish read split popped known found callee ih =>
    exact ih (h.takeCallOperand popped) legal.1 uncrowded.1 stems

/-- **There is room on the stack** for what is made of a charstring within limits. -/
theorem fits_of_decode {sets : SubroutineSets} {charstring : List UInt8} {list : List Instruction}
    (h : decode sets charstring = .ok list) {x : Execution} {e : Ending} {p : Progress}
    (hx : Executes sets nestingLimit charstring {} x e p) (legal : x.Legal)
    (stems : p.stems ≤ stemLimit) (uncrowded : x.Uncrowded) :
    Fits list.reverse ∧ depthAfter list.reverse ≤ ArgStack.capacity := by
  obtain ⟨e', p', q, hd, hq, rfl⟩ := decode_eq_ok h
  rw [← decodeNested_eq] at hd
  have same := hd.symm.trans (decodeNested_of_executes hx)
  cases same
  have fitting := hx.fitting Progress.fitting_start legal.1 uncrowded stems
  have room : depthAfter p.made ≤ ArgStack.capacity :=
    Nat.le_trans fitting.depth_le (Nat.le_trans legal.2 (by decide))
  rw [Progress.instructions, List.reverse_reverse]
  rcases hq with rfl | rfl
  · exact ⟨fitting.fits, room⟩
  · exact ⟨⟨fun _ => room, fitting.fits⟩, Nat.zero_le _⟩

end CompactFont.Charstring
