import CompactFont.Outline.Evaluator
import CompactFont.Proofs.Charstring.Expansion

/-!
# Evaluating compacted instructions

Whoever takes in an outline cannot tell whether its instructions were compacted, or expanded again
(`evaluate_compact`): the calls are the same, in the same order, and so is the fault if there is
one. What need not be the same is the frame that is left after a fault, which is only put back.

A load of several integers pushes them one by one, so if the stack runs full it does so at the same
integer as with a load for each of them. Nothing is drawn between two loads.
-/

namespace CompactFont

open Charstring

/-! ### Runs without their frames -/

/-- What comes of a run, apart from the frame that is left. -/
def Frame.outcome (f : Frame) (plotter : Plotter) (list : List Instruction) :
    Plotter × Option FontFault :=
  (f.run plotter list).2

/-- What comes of the instructions after a step. -/
def Step.outcome (list : List Instruction) : Step → Plotter × Option FontFault
  | .next f plotter => f.outcome plotter list
  | .halt _ plotter => (plotter, none)
  | .fail fault plotter => (plotter, some fault)

/-- The evaluation that the outcome of a run amounts to. -/
def Evaluation.ofOutcome : Plotter × Option FontFault → Evaluation
  | (plotter, none) => ⟨(plotter.closeOpen.send .endContours).calls, none⟩
  | (plotter, some fault) => ⟨plotter.calls, some fault⟩

namespace Frame

theorem outcome_cons (f : Frame) (plotter : Plotter) (i : Instruction) (list : List Instruction) :
    f.outcome plotter (i :: list) = (f.step plotter i).outcome list := by
  simp only [outcome, run]
  split
  · rename_i h; rw [h]; rfl
  · rename_i h; rw [h]; rfl
  · rename_i h; rw [h]; rfl

/-- An evaluation is made of what comes of the run, and of nothing else. -/
theorem fst_evaluate (f : Frame) (scale : Float32) (list : List Instruction) :
    (f.evaluate scale list).1 =
      .ofOutcome (f.outcome ((Plotter.start scale).send (.beginContours none)) list) := by
  simp only [evaluate, outcome]
  generalize f.run _ list = r
  obtain ⟨f, plotter, _ | fault⟩ := r <;> rfl

/-! ### Loads -/

/-- An instruction that has taken over nothing only performs its operation. -/
theorem step_of_taken_nothing (f : Frame) (plotter : Plotter) {i : Instruction}
    (h : i.taken = .nothing) : f.step plotter i = f.operate plotter i := by
  simp only [step, h]
  rfl

/-- Loads of single integers push all of them, as long as there is room. -/
theorem outcome_ints (f : Frame) (plotter : Plotter) (ns : List Int32) (list : List Instruction) :
    f.outcome plotter (ns.map .int ++ list) =
      (f.pushed plotter (f.stack.pushAll (ns.map operandOfInt32))).outcome list := by
  induction ns generalizing f with
  | nil => rfl
  | cons n ns ih =>
    have step : f.step plotter (.int n) = f.pushed plotter (f.stack.push (operandOfInt32 n)) := rfl
    rw [List.map_cons, List.cons_append, outcome_cons, step, List.map_cons, ArgStack.pushAll]
    cases f.stack.push (operandOfInt32 n) with
    | error fault => rfl
    | ok stack => exact ih { f with stack }

/-- A packed load pushes all its integers, as long as there is room. -/
theorem operate_packed (f : Frame) (plotter : Plotter) {i : Instruction}
    (h : i.packedOperands ≠ []) :
    f.operate plotter i =
      f.pushed plotter (f.stack.pushAll (i.packedOperands.map operandOfInt32)) := by
  obtain ⟨op, taken, value⟩ := i
  unfold Instruction.packedOperands at h
  split at h
  · rename_i hop; cases hop; rfl
  · rename_i hop; cases hop; rfl
  · rename_i hop; cases hop; rfl
  · exact absurd rfl h

/-- An operation that is no load does not look at the value. -/
theorem operate_of_not_isLoad (f : Frame) (plotter : Plotter) {op : Op} (h : op.isLoad = false)
    (taken taken' : Taken) (value value' : Int32) :
    f.operate plotter ⟨op, taken, value⟩ = f.operate plotter ⟨op, taken', value'⟩ := by
  cases op with
  | load form => cases h
  | _ => rfl

/-! ### Loads put together -/

/-- A packed load does what the loads of its integers do. -/
theorem outcome_pack (f : Frame) (plotter : Plotter) {i : Instruction} (list : List Instruction)
    (taken : i.taken = .nothing) (two : 2 ≤ i.packedOperands.length) :
    f.outcome plotter (i :: list) =
      f.outcome plotter (i.packedOperands.map .int ++ list) := by
  have some : i.packedOperands ≠ [] := by
    rintro none
    rw [none] at two
    cases two
  rw [outcome_cons, step_of_taken_nothing f plotter taken, operate_packed f plotter some,
    outcome_ints]

/-- An instruction that took over a load does what the load and the instruction do. -/
theorem outcome_take (f : Frame) (plotter : Plotter) {i j : Instruction} {taken : Taken}
    (list : List Instruction) (load : i.takeable? = some taken) (free : j.takes = true) :
    f.outcome plotter (⟨j.op, taken, i.value⟩ :: list) = f.outcome plotter (i :: j :: list) := by
  obtain ⟨op, rfl, notLoad, -⟩ := Instruction.takes_eq_true free
  have push : f.step plotter i =
      f.pushed plotter (f.stack.pushAll ((taken.operands i.value).map operandOfInt32)) := by
    rcases Instruction.takeable?_eq_some load with ⟨hi, rfl⟩ | ⟨hi, rfl⟩ | ⟨hi, rfl⟩
    · rw [hi]
      change f.pushed plotter (f.stack.push (operandOfInt32 i.value)) =
        f.pushed plotter (f.stack.pushAll [operandOfInt32 i.value])
      rw [ArgStack.pushAll]
      cases f.stack.push (operandOfInt32 i.value) <;> rfl
    · rw [hi]; rfl
    · rw [hi]; rfl
  rw [outcome_cons, outcome_cons, push, step]
  cases f.stack.pushAll ((taken.operands i.value).map operandOfInt32) with
  | error fault => rfl
  | ok stack =>
    change (operate { f with stack } plotter ⟨op, taken, i.value⟩).outcome list =
      outcome { f with stack } plotter (.plain op :: list)
    rw [outcome_cons, step_of_taken_nothing _ _ rfl,
      operate_of_not_isLoad _ _ notLoad taken .nothing i.value 0]
    rfl

end Frame

/-! ### Runs of folded and of expanded lists -/

/-- What comes of the instructions after a step does not depend on how they are written. -/
theorem Step.outcome_congr {list list' : List Instruction}
    (h : ∀ f plotter, Frame.outcome f plotter list' = Frame.outcome f plotter list) (s : Step) :
    s.outcome list' = s.outcome list := by
  cases s with
  | next f plotter => exact h f plotter
  | halt f plotter => rfl
  | fail fault plotter => rfl

/-- **Folding does not show** in what comes of a run. -/
theorem outcome_of_folds {list short : List Instruction} (h : Folds list short) (f : Frame)
    (plotter : Plotter) : f.outcome plotter short = f.outcome plotter list := by
  induction h generalizing f plotter with
  | nil => rfl
  | keep i _ ih =>
    rw [Frame.outcome_cons, Frame.outcome_cons]
    exact Step.outcome_congr ih _
  | pack taken operands two _ _ _ ih =>
    subst operands
    rw [Frame.outcome_pack f plotter _ taken two, Frame.outcome_ints, Frame.outcome_ints]
    exact Step.outcome_congr ih _
  | take load free _ ih =>
    rw [Frame.outcome_take f plotter _ load free, Frame.outcome_cons, Frame.outcome_cons]
    refine Step.outcome_congr (fun f plotter => ?_) _
    rw [Frame.outcome_cons, Frame.outcome_cons]
    exact Step.outcome_congr ih _

/-- If the instruction loads a single operand, it has taken over no other load. -/
def Charstring.Instruction.BareLoad (i : Instruction) : Prop :=
  i.op = .load .int ∨ i.op = .load .fixed → i.taken = .nothing

/-- An instruction does what the instructions do that it stands for. The load of a single operand
that has taken over another one is an exception: expansion drops its own operand. -/
theorem Frame.outcome_expand (f : Frame) (plotter : Plotter) {i : Instruction} (bare : i.BareLoad)
    (list : List Instruction) :
    f.outcome plotter (i.expand ++ list) = f.outcome plotter (i :: list) := by
  obtain ⟨op, taken, value⟩ := i
  rw [Instruction.expand, List.append_assoc, outcome_ints, outcome_cons, step]
  cases f.stack.pushAll ((taken.operands value).map operandOfInt32) with
  | error fault => rfl
  | ok stack =>
    simp only [pushed, Step.outcome]
    split
    · rename_i none
      rw [List.singleton_append, outcome_cons, step_of_taken_nothing _ _ rfl]
      congr 1
      by_cases notLoad : op.isLoad = false
      · exact operate_of_not_isLoad _ _ notLoad _ _ _ _
      · cases op with
        | load form =>
          cases form with
          | int => cases bare (.inl rfl); rfl
          | fixed => cases bare (.inr rfl); rfl
          | shorts => cases none
          | fourBytes => cases none
          | threeBytes => cases none
        | _ => exact absurd rfl notLoad
    · rename_i some
      rw [outcome_ints, operate_packed _ _ some]
      rfl

/-- **Expanding does not show** in what comes of a run. -/
theorem outcome_expand {list : List Instruction} (bare : ∀ i ∈ list, i.BareLoad) (f : Frame)
    (plotter : Plotter) : f.outcome plotter (expand list) = f.outcome plotter list := by
  induction list generalizing f plotter with
  | nil => rfl
  | cons i list ih =>
    rw [expand_cons, f.outcome_expand plotter (bare i List.mem_cons_self), Frame.outcome_cons,
      Frame.outcome_cons]
    exact Step.outcome_congr (ih fun j hj => bare j (List.mem_cons_of_mem i hj)) _

/-- Folding makes no load of a single operand that has taken over another load. -/
theorem bareLoad_of_folds {list short : List Instruction} (h : Folds list short)
    (bare : ∀ i ∈ list, i.BareLoad) : ∀ i ∈ short, i.BareLoad := by
  induction h with
  | nil => exact bare
  | keep i _ ih =>
    intro j hj
    rcases List.mem_cons.mp hj with rfl | hj
    · exact bare j List.mem_cons_self
    · exact ih (fun k hk => bare k (List.mem_cons_of_mem i hk)) j hj
  | pack taken operands two _ _ _ ih =>
    intro j hj
    rcases List.mem_cons.mp hj with rfl | hj
    · exact fun _ => taken
    · exact ih (fun k hk => bare k (List.mem_append_right _ hk)) j hj
  | @take i j _ _ _ load free _ ih =>
    intro k hk
    rcases List.mem_cons.mp hk with rfl | hk
    · obtain ⟨op, rfl, notLoad, -⟩ := Instruction.takes_eq_true free
      rintro (rfl | rfl) <;> cases notLoad
    · exact ih (fun l hl => bare l (List.mem_cons_of_mem i (List.mem_cons_of_mem j hl))) k hk

/-! ### Evaluations -/

/-- Evaluations of lists whose runs come to the same are the same. -/
theorem Evaluator.evaluate_congr {list list' : List Instruction}
    (h : ∀ f plotter, Frame.outcome f plotter list' = Frame.outcome f plotter list) (e : Evaluator)
    (scale : Float32) : (e.evaluate scale list').1 = (e.evaluate scale list).1 := by
  change (e.takeOut.1.evaluate scale list').1 = (e.takeOut.1.evaluate scale list).1
  rw [Frame.fst_evaluate, Frame.fst_evaluate, h]

theorem Charstring.Compactor.outcome_fst_compact (c : Compactor) (list : List Instruction)
    (f : Frame) (plotter : Plotter) :
    f.outcome plotter (c.compact list).1 = f.outcome plotter list := by
  change f.outcome plotter (takeLoads (c.packRuns list).written.toList) = _
  rw [outcome_of_folds (folds_takeLoads _), outcome_of_folds (c.folds_packRuns list)]

/-- **Compaction is invisible to the evaluator**, for every list, every scale, and whatever the
evaluator and the compactor were used for: the calls and the fault of the compacted list are those
of the list itself. So are those of the expanded list, unless the load of a single operand has taken
over another load, which does not come about by compacting. -/
theorem evaluate_compact (e : Evaluator) (scale : Float32) (c : Compactor)
    (list : List Instruction) :
    (e.evaluate scale (c.compact list).1).1 = (e.evaluate scale list).1 ∧
    ((∀ i ∈ list, i.BareLoad) →
      (e.evaluate scale (expand list)).1 = (e.evaluate scale list).1 ∧
      ∀ i ∈ (c.compact list).1, i.BareLoad) := by
  refine ⟨e.evaluate_congr (c.outcome_fst_compact list) scale, fun bare => ⟨?_, ?_⟩⟩
  · exact e.evaluate_congr (outcome_expand bare) scale
  · exact bareLoad_of_folds (folds_takeLoads _) (bareLoad_of_folds (c.folds_packRuns list) bare)

/-- A move that has taken over its operands, then so many packed loads that the stack runs full
within one of them: the expanded list fails as well, after the same calls. -/
theorem evaluate_compact_full_stack :
    ∃ list : List Instruction, (∀ i ∈ list, i.BareLoad) ∧ list.length = 14 ∧
      (expand list).length = 55 ∧ (evaluate 1 list).fault = some .tooManyOperands ∧
      evaluate 1 (expand list) = evaluate 1 list := by
  have bare : ∀ i ∈ ⟨.move .rmoveto, .shorts, 19725012⟩ ::
      List.replicate 13 (Instruction.withValue (.load .fourBytes) 16909060), i.BareLoad := by
    intro i hi
    rcases List.mem_cons.mp hi with rfl | hi
    · rintro (h | h) <;> cases h
    · rw [List.eq_of_mem_replicate hi]
      exact fun _ => rfl
  exact ⟨_, bare, rfl, rfl, rfl, ((evaluate_compact .new 1 .new _).2 bare).1⟩

end CompactFont
