import CompactFont.Proofs.Outline.Compacted

/-!
# Sketches

What instructions draw depends neither on the scale nor on who takes it in. A sketch is what a step
or a run draws before it is plotted: the segments, with all their points where the pen really is, and
where it leads. A plotter adds nothing to it: every step is its sketch plotted (`Frame.step_eq`), and
so is every run (`Frame.run_eq`). An evaluation is therefore the sketch of its list plotted to a scale
(`Frame.fst_evaluate_eq`), and what comes of it can be told from the sketch alone.

A run ends with the instruction that ends the outline or fails. What follows that instruction does
not show in the sketch (`Frame.sketchAll_of_fault?`).
-/

namespace CompactFont

open Charstring

/-- Where a step or a run leads. -/
inductive Ending where
  /-- To the next instruction. -/
  | next (frame : Frame)
  /-- To the end of the outline; the contour that is open may be closed there. -/
  | halt (frame : Frame) (closes : Bool)
  /-- To a fault. -/
  | fail (fault : FontFault)

namespace Ending

/-- The frame that is left, unless there was a fault. -/
def frame? : Ending → Option Frame
  | .next f | .halt f _ => some f
  | .fail _ => none

/-- The fault, if there was one. -/
def fault? : Ending → Option FontFault
  | .fail fault => some fault
  | _ => none

theorem fault?_eq_none_iff {e : Ending} : e.fault? = none ↔ ∃ f, e.frame? = some f := by
  cases e <;> simp [fault?, frame?]

end Ending

/-- A plotter that was told that contours begin, and of nothing else. -/
def Plotter.begun (scale : Float32) : Plotter := (start scale).send (.beginContours none)

/-- What a step or a run draws, before it is plotted. -/
structure Sketch where
  /-- The segments. -/
  segments : List Segment
  /-- Where it leads. -/
  ending : Ending

namespace Sketch

/-- A plotter after what is sketched. -/
def plotted (s : Sketch) (p : Plotter) : Plotter :=
  match s.ending with
  | .halt _ true => (p.plotAll s.segments).closeOpen
  | _ => p.plotAll s.segments

/-- The step that plots what is sketched. -/
def toStep (s : Sketch) (p : Plotter) : Step :=
  match s.ending with
  | .next f => .next f (s.plotted p)
  | .halt f _ => .halt f (s.plotted p)
  | .fail fault => .fail fault (s.plotted p)

/-- What is sketched and, if there is a next instruction, what is sketched then. -/
def andThen (s : Sketch) (next : Frame → Sketch) : Sketch :=
  match s.ending with
  | .next f => ⟨s.segments ++ (next f).segments, (next f).ending⟩
  | _ => s

/-- The evaluation that plots what is sketched to a scale. -/
def evaluation (s : Sketch) (scale : Float32) : Evaluation :=
  let plotter := (Plotter.begun scale).plotAll s.segments
  match s.ending.fault? with
  | none => ⟨(plotter.closeOpen.send .endContours).calls, none⟩
  | some fault => ⟨plotter.calls, some fault⟩

end Sketch

namespace Frame

/-- The sketch of a step that pushes operands. -/
def sketchPushed (f : Frame) : Except FontFault ArgStack → Sketch
  | .ok stack => ⟨[], .next { f with stack }⟩
  | .error fault => ⟨[], .fail fault⟩

/-- The sketch of a step that draws. -/
def sketchDrawn (f : Frame) (drawing : Drawing) : Sketch :=
  match drawing.outcome with
  | .ok pen => ⟨drawing.segments, .next ⟨pen, f.stack.clear⟩⟩
  | .error fault => ⟨drawing.segments, .fail fault⟩

/-- The sketch of the operation of an instruction. -/
def sketchOperation (f : Frame) (i : Instruction) : Sketch :=
  match i.op with
  | .load .int => f.sketchPushed (f.stack.push (operandOfInt32 i.value))
  | .load .fixed => f.sketchPushed (f.stack.push i.fixedValue)
  | .load _ => f.sketchPushed (f.stack.pushAll (i.packedOperands.map operandOfInt32))
  | .width | .arithmetic _ => ⟨[], .next f⟩
  | .stem _ | .mask _ _ => ⟨[], .next { f with stack := f.stack.clear }⟩
  | .move kind => f.sketchDrawn (.ofMove kind f.pen f.stack.toList)
  | .draw kind => f.sketchDrawn (.ofDraw kind f.pen f.stack.toList)
  | .endchar => ⟨[], .halt { f with stack := f.stack.clear } true⟩
  | .ret => ⟨[], .halt { f with stack := f.stack.clear } false⟩
  | .call _ => ⟨[], .fail .callNotInlined⟩

/-- The sketch of a step. -/
def sketch (f : Frame) (i : Instruction) : Sketch :=
  match f.stack.pushAll ((i.taken.operands i.value).map operandOfInt32) with
  | .ok stack => sketchOperation { f with stack } i
  | .error fault => ⟨[], .fail fault⟩

/-- The sketch of a run. -/
def sketchAll (f : Frame) : List Instruction → Sketch
  | [] => ⟨[], .next f⟩
  | i :: rest => (f.sketch i).andThen fun f => f.sketchAll rest

/-- The instructions that a run performs, each with the frame in which it does so. -/
def performed (f : Frame) : List Instruction → List (Frame × Instruction)
  | [] => []
  | i :: rest =>
    (f, i) ::
      match (f.sketch i).ending with
      | .next f => f.performed rest
      | _ => []

end Frame

/-! ### Plotting a sketch -/

theorem Sketch.plotted_andThen (s : Sketch) (next : Frame → Sketch) (p : Plotter) :
    (s.andThen next).plotted p =
      match s.ending with
      | .next f => (next f).plotted (s.plotted p)
      | _ => s.plotted p := by
  obtain ⟨segments, ending⟩ := s
  cases ending with
  | next f => simp only [andThen, plotted, Plotter.plotAll_append]
  | halt f closes => rfl
  | fail fault => rfl

theorem Sketch.evaluation_of_none {s : Sketch} (h : s.ending.fault? = none) (scale : Float32) :
    s.evaluation scale =
      ⟨(((Plotter.begun scale).plotAll s.segments).closeOpen.send .endContours).calls, none⟩ := by
  simp only [evaluation, h]

theorem Sketch.evaluation_of_some {s : Sketch} {fault : FontFault}
    (h : s.ending.fault? = some fault) (scale : Float32) :
    s.evaluation scale = ⟨((Plotter.begun scale).plotAll s.segments).calls, some fault⟩ := by
  simp only [evaluation, h]

namespace Frame

theorem pushed_eq (f : Frame) (p : Plotter) (pushes : Except FontFault ArgStack) :
    f.pushed p pushes = (f.sketchPushed pushes).toStep p := by
  cases pushes <;> rfl

theorem drawn_eq (f : Frame) (p : Plotter) (drawing : Drawing) :
    f.drawn p drawing = (f.sketchDrawn drawing).toStep p := by
  obtain ⟨segments, outcome⟩ := drawing
  cases outcome <;> rfl

theorem operate_eq (f : Frame) (p : Plotter) (i : Instruction) :
    f.operate p i = (f.sketchOperation i).toStep p := by
  obtain ⟨op, taken, value⟩ := i
  cases op with
  | load form => cases form <;> exact f.pushed_eq p _
  | move kind => exact f.drawn_eq p _
  | draw kind => exact f.drawn_eq p _
  | _ => rfl

/-- **A step is its sketch plotted.** -/
theorem step_eq (f : Frame) (p : Plotter) (i : Instruction) :
    f.step p i = (f.sketch i).toStep p := by
  simp only [step, sketch]
  cases f.stack.pushAll ((i.taken.operands i.value).map operandOfInt32) with
  | ok stack => exact operate_eq _ p i
  | error fault => rfl

/-- **A run is its sketch plotted.** The frame of a run that fails is not looked at. -/
theorem run_eq (f : Frame) (p : Plotter) (list : List Instruction) :
    (f.run p list).2 = ((f.sketchAll list).plotted p, (f.sketchAll list).ending.fault?) ∧
      ∀ g, (f.sketchAll list).ending.frame? = some g → (f.run p list).1 = g := by
  induction list generalizing f p with
  | nil => exact ⟨rfl, fun g h => Option.some.inj h⟩
  | cons i rest ih =>
    rw [run, step_eq, sketchAll, Sketch.plotted_andThen]
    obtain ⟨segments, ending⟩ := f.sketch i
    cases ending with
    | next g => exact ih g _
    | halt g closes => exact ⟨rfl, fun g h => Option.some.inj h⟩
    | fail fault =>
      refine ⟨rfl, fun g h => ?_⟩
      cases h

/-- A run without a fault is told by the sketch: the frame that is left, and the plotter. -/
theorem run_eq_none_iff {f g : Frame} {p p' : Plotter} {list : List Instruction} :
    f.run p list = (g, p', none) ↔
      (f.sketchAll list).ending.frame? = some g ∧ (f.sketchAll list).plotted p = p' := by
  obtain ⟨result, left⟩ := f.run_eq p list
  constructor
  · intro h
    rw [h] at result left
    obtain ⟨plotted, noFault⟩ := Prod.mk.inj result
    obtain ⟨k, hk⟩ := Ending.fault?_eq_none_iff.mp noFault.symm
    obtain rfl : g = k := left k hk
    exact ⟨hk, plotted.symm⟩
  · rintro ⟨hg, rfl⟩
    have noFault := Ending.fault?_eq_none_iff.mpr ⟨g, hg⟩
    exact Prod.ext (left g hg) (by rw [result, noFault])

/-- **An evaluation is its sketch plotted**, to a scale and from the start. -/
theorem fst_evaluate_eq (f : Frame) (scale : Float32) (list : List Instruction) :
    (f.evaluate scale list).1 = (f.sketchAll list).evaluation scale := by
  rw [fst_evaluate, outcome, (f.run_eq _ list).1]
  obtain ⟨segments, ending⟩ := f.sketchAll list
  cases ending with
  | next g => rfl
  | halt g closes =>
    cases closes with
    | false => rfl
    | true =>
      simp [Evaluation.ofOutcome, Sketch.evaluation, Sketch.plotted, Ending.fault?, Plotter.begun]
  | fail fault => rfl

/-! ### Runs that fail -/

/-- A run that fails does so at one of its instructions, and what follows is not performed. -/
theorem sketchAll_of_fault? {f : Frame} {list : List Instruction} {fault : FontFault}
    (h : (f.sketchAll list).ending.fault? = some fault) :
    ∃ done i rest, list = done ++ i :: rest ∧ (f.sketchAll done).ending.fault? = none ∧
      ∀ others, f.sketchAll (done ++ i :: others) = f.sketchAll list := by
  induction list generalizing f with
  | nil => cases h
  | cons i list ih =>
    cases hs : (f.sketch i).ending with
    | next g =>
      have later : (g.sketchAll list).ending.fault? = some fault := by
        simpa [sketchAll, Sketch.andThen, hs] using h
      obtain ⟨done, j, rest, rfl, noFault, same⟩ := ih later
      refine ⟨i :: done, j, rest, rfl, ?_, fun others => ?_⟩
      · simpa [sketchAll, Sketch.andThen, hs] using noFault
      · simp only [List.cons_append, sketchAll, Sketch.andThen, hs, same]
    | halt g closes => simp [sketchAll, Sketch.andThen, hs, Ending.fault?] at h
    | fail fault' =>
      refine ⟨[], i, list, rfl, rfl, fun others => ?_⟩
      simp [sketchAll, Sketch.andThen, hs]

end Frame

end CompactFont
