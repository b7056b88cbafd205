import CompactFont.Proofs.Outline.Access
import CompactFont.Proofs.Outline.Reuse

/-!
# Evaluations read nothing but operands

The operators use the stack as they may, whatever waits on it. So a whole evaluation does, which is followed
here instruction by instruction, with each access to the stack guarded (`Frame.guardedRun`). It comes to no
misuse, whatever the list is and whatever the slots of the frame hold, and it is the evaluation itself
(`Frame.evaluate_guarded`): each step leaves a frame that is alike the one that is meant.
-/

namespace CompactFont

open Charstring (Instruction)

/-! ### Evaluations -/

namespace Frame

/-- The sketch of a step that pushes operands. -/
def guardedPushed (f : Frame) (pushes : Guarded (Except FontFault ArgStack)) : Guarded Sketch := do
  let pushes ← pushes
  return f.sketchPushed pushes

/-- The sketch of a step that draws, with the operands that it leaves. -/
def guardedDrawn (drawn : Guarded (Drawing × ArgStack)) : Guarded Sketch := do
  let (drawing, left) ← drawn
  match drawing.outcome with
  | .ok pen => return ⟨drawing.segments, .next ⟨pen, left⟩⟩
  | .error fault => return ⟨drawing.segments, .fail fault⟩

/-- The operation of an instruction. What neither loads nor draws does not go to the operands. -/
def guardedOperation (f : Frame) (i : Instruction) : Guarded Sketch :=
  match i.op with
  | .load .int => f.guardedPushed (f.stack.store (operandOfInt32 i.value))
  | .load .fixed => f.guardedPushed (f.stack.store i.fixedValue)
  | .load _ => f.guardedPushed (f.stack.storeAll (i.packedOperands.map operandOfInt32))
  | .move kind => guardedDrawn (f.stack.move f.pen kind)
  | .draw kind => guardedDrawn (f.stack.draw f.pen kind)
  | _ => .ok (f.sketchOperation i)

/-- Pushes what an instruction has taken over, and then performs its operation. -/
def guardedStep (f : Frame) (i : Instruction) : Guarded Sketch := do
  match ← f.stack.storeAll ((i.taken.operands i.value).map operandOfInt32) with
  | .ok stack => guardedOperation { f with stack } i
  | .error fault => return ⟨[], .fail fault⟩

/-- Performs instructions up to the end of the outline, to a fault or to a misuse. -/
def guardedRun (f : Frame) : List Instruction → Guarded Sketch
  | [] => .ok ⟨[], .next f⟩
  | i :: rest => do
    let sketch ← f.guardedStep i
    match sketch.ending with
    | .next g => do
      let later ← g.guardedRun rest
      return ⟨sketch.segments ++ later.segments, later.ending⟩
    | _ => return sketch

/-- With an operator that draws what it should, the step is the one that is meant. -/
theorem exists_guardedDrawn (f : Frame) {drawn : Guarded (Drawing × ArgStack)} {meant : Drawing}
    (h : Draws drawn meant) :
    ∃ sketch, guardedDrawn drawn = .ok sketch ∧ (f.sketchDrawn meant).Alike sketch := by
  obtain ⟨left, rfl, empty⟩ := h
  obtain ⟨segments, outcome⟩ := meant
  cases outcome with
  | ok stop => exact ⟨_, rfl, rfl, .next ⟨rfl, (empty ⟨stop, rfl⟩).symm⟩⟩
  | error fault => exact ⟨_, rfl, rfl, .fail⟩

theorem exists_guardedOperation (f : Frame) (i : Instruction) :
    ∃ sketch, f.guardedOperation i = .ok sketch ∧ (f.sketchOperation i).Alike sketch := by
  obtain ⟨op, taken, value⟩ := i
  cases op with
  | load form =>
    have pushed (pushes : Except FontFault ArgStack) :
        ∃ sketch, f.guardedPushed (.ok pushes) = .ok sketch ∧ (f.sketchPushed pushes).Alike sketch :=
      ⟨_, rfl, .refl _⟩
    cases form with
    | int =>
      simp only [guardedOperation, ArgStack.store_eq]
      exact pushed _
    | fixed =>
      simp only [guardedOperation, ArgStack.store_eq]
      exact pushed _
    | _ =>
      simp only [guardedOperation, ArgStack.storeAll_eq]
      exact pushed _
  | move kind => exact f.exists_guardedDrawn (f.stack.draws_move f.pen kind)
  | draw kind => exact f.exists_guardedDrawn (f.stack.draws_draw f.pen kind)
  | _ => exact ⟨_, rfl, .refl _⟩

/-- A step has no misuse, and is the one that is meant. -/
theorem exists_guardedStep (f : Frame) (i : Instruction) :
    ∃ sketch, f.guardedStep i = .ok sketch ∧ (f.sketch i).Alike sketch := by
  simp only [guardedStep, sketch, ArgStack.storeAll_eq, bind, Except.bind]
  cases f.stack.pushAll ((i.taken.operands i.value).map operandOfInt32) with
  | ok stack => exact exists_guardedOperation _ i
  | error fault => exact ⟨_, rfl, .refl _⟩

/-- A run has no misuse, and is the one that is meant. -/
theorem exists_guardedRun (f : Frame) (list : List Instruction) :
    ∃ sketch, f.guardedRun list = .ok sketch ∧ (f.sketchAll list).Alike sketch := by
  induction list generalizing f with
  | nil => exact ⟨_, rfl, .refl _⟩
  | cons i rest ih =>
    obtain ⟨⟨segments, ending⟩, step, alike⟩ := f.exists_guardedStep i
    rw [guardedRun, step, sketchAll]
    generalize f.sketch i = meant at alike
    obtain ⟨meant, _⟩ := meant
    obtain ⟨same, endings⟩ := alike
    obtain rfl : meant = segments := same
    cases endings with
    | @next f' g alike =>
      obtain ⟨later, performed, onward⟩ := ih g
      refine ⟨⟨meant ++ later.segments, later.ending⟩, ?_, ?_⟩
      · simp only [bind, Except.bind, performed]
        rfl
      · have onward := (alike.sketchAll rest).trans onward
        exact ⟨congrArg (meant ++ ·) onward.segments, onward.ending⟩
    | halt alike => exact ⟨_, rfl, rfl, .halt alike⟩
    | fail => exact ⟨_, rfl, rfl, .fail⟩

/-- **Nothing is read but operands.** Every evaluation, in whatever frame it starts and whatever its slots
hold, goes through without misuse of the stack, and is the evaluation that is meant. And whatever is pushed,
there is a slot for it, or all 50 are taken and it is refused. -/
theorem evaluate_guarded (f : Frame) (list : List Instruction) :
    (∃ sketch, f.guardedRun list = .ok sketch ∧
      ∀ scale, (f.evaluate scale list).1 = sketch.evaluation scale) ∧
    ∀ (s : ArgStack) (x : Float32),
      (s.depth < ArgStack.capacity ∧ ∃ t, s.push x = .ok t ∧ t.depth = s.depth + 1) ∨
        (s.depth = ArgStack.capacity ∧ s.push x = .error .tooManyOperands) := by
  constructor
  · obtain ⟨sketch, guarded, alike⟩ := f.exists_guardedRun list
    refine ⟨sketch, guarded, fun scale => ?_⟩
    rw [fst_evaluate_eq, alike.evaluation_eq]
  · intro s x
    have hle := s.depth_le
    by_cases full : s.depth = ArgStack.capacity
    · exact .inr ⟨full, dif_neg (by omega)⟩
    · have room : s.depth < ArgStack.capacity := by omega
      exact .inl ⟨room, _, dif_pos room, rfl⟩

end Frame

end CompactFont
