import CompactFont.Proofs.Outline.Operands
import CompactFont.Proofs.Outline.Reuse
import Mathlib.Data.List.Chain

/-!
# One outline to every scale

The scale of an evaluation shows in the coordinates of the calls, and in nothing else. For a list of
instructions there is one list of calls whose points are where the pen really is (`unscaled`). An
evaluation makes these calls to its scale: each number that is passed on (`Call.coordinates`) is the number
of the unscaled call, multiplied by the scale once (`Call.coordinates_scaled`). A plotter keeps to the calls
that it was asked for, segment by segment (`Plotter.KeepsTo`).

What the instructions go by does not depend on the scale either (`Frame.Alike.moments_eq`): where the pen
is, which operands wait, and the axis along which `flex1` comes back to its start. That it does come back
along this axis shows in where the pen is at the next moment (`Moment.Leads`). **`evaluate_scaled`** says all
this of an evaluator that was used for anything before.
-/

namespace CompactFont

open Charstring (Instruction Taken)

/-! ### Calls that are not scaled -/

/-- The calls for a segment. The contour that is open is closed before a move. -/
def Segment.calls (opened : Bool) : Segment → List Call
  | .move stop => (if opened then [.close] else []) ++ [.segment (.move stop)]
  | s => [.segment s]

/-- The calls for segments, one after the other. -/
def Segment.allCalls (opened : Bool) : List Segment → List Call
  | [] => []
  | s :: segments => s.calls opened ++ allCalls ((Call.segment s).opens opened) segments

/-- Whether a contour is open after segments. -/
def Segment.allOpen (opened : Bool) : List Segment → Bool
  | [] => opened
  | s :: segments => allOpen ((Call.segment s).opens opened) segments

/-- The calls for what is sketched, from the start to the end of an outline or to a fault. -/
def Sketch.unscaled (s : Sketch) : Evaluation :=
  let drawn := Call.beginContours none :: Segment.allCalls false s.segments
  let closed := if Segment.allOpen false s.segments then [Call.close] else []
  match s.ending.fault? with
  | none => ⟨drawn ++ closed ++ [.endContours], none⟩
  | some fault => ⟨drawn, some fault⟩

/-- The calls for a list of instructions, and the fault. -/
def unscaled (list : List Instruction) : Evaluation := (Frame.new.sketchAll list).unscaled

/-- The evaluation with each point of its calls multiplied. -/
def Evaluation.scaled (e : Evaluation) (scale : Float32) : Evaluation :=
  ⟨e.calls.map (·.scaled scale), e.fault⟩

/-- The numbers that a call passes on: for each of its points, along the horizontal and along the
vertical. -/
def Call.coordinates : Call → List Float32
  | .segment (.move p) | .segment (.line p) => [p.x, p.y]
  | .segment (.curve p q r) => [p.x, p.y, q.x, q.y, r.x, r.y]
  | _ => []

theorem Call.kind_scaled (c : Call) (scale : Float32) : (c.scaled scale).kind = c.kind := by
  cases c with
  | segment s => exact s.kind_scaled scale
  | _ => rfl

/-- Each number is multiplied, and nothing else is done to it. -/
theorem Call.coordinates_scaled (c : Call) (scale : Float32) :
    (c.scaled scale).coordinates = c.coordinates.map (· * scale) := by
  cases c with
  | segment s => cases s <;> rfl
  | _ => rfl

/-! ### Plotters that keep to calls -/

/-- The plotter passed on these calls to its scale, and knows whether a contour is open. -/
structure Plotter.KeepsTo (p : Plotter) (scale : Float32) (opened : Bool) (calls : List Call) :
    Prop where
  /-- The scale. -/
  scale_eq : p.scale = scale
  /-- Whether a contour is open. -/
  opened_eq : p.contourOpen = opened
  /-- The calls that were passed on. -/
  calls_eq : p.calls = calls.map (·.scaled scale)

namespace Plotter.KeepsTo

variable {p : Plotter} {scale : Float32} {opened : Bool} {calls : List Call}

theorem send (h : p.KeepsTo scale opened calls) (c : Call) :
    (p.send c).KeepsTo scale (c.opens opened) (calls ++ [c]) where
  scale_eq := h.scale_eq
  opened_eq := congrArg c.opens h.opened_eq
  calls_eq := by rw [calls_send, h.calls_eq, h.scale_eq, List.map_append]; rfl

theorem closeOpen (h : p.KeepsTo scale opened calls) :
    p.closeOpen.KeepsTo scale false (calls ++ if opened then [.close] else []) := by
  cases opened with
  | true =>
    rw [closeOpen_of_open h.opened_eq]
    exact h.send .close
  | false =>
    rw [closeOpen_of_shut h.opened_eq, if_neg Bool.false_ne_true, List.append_nil]
    exact h

/-- A segment adds its calls. -/
theorem plot (h : p.KeepsTo scale opened calls) (s : Segment) :
    (p.plot s).KeepsTo scale ((Call.segment s).opens opened) (calls ++ s.calls opened) := by
  cases s with
  | move stop =>
    rw [Segment.calls, ← List.append_assoc]
    exact h.closeOpen.send (.segment (.move stop))
  | line stop => exact h.send (.segment (.line stop))
  | curve first second stop => exact h.send (.segment (.curve first second stop))

/-- Segments add their calls, one after the other. -/
theorem plotAll (h : p.KeepsTo scale opened calls) (segments : List Segment) :
    (p.plotAll segments).KeepsTo scale (Segment.allOpen opened segments)
      (calls ++ Segment.allCalls opened segments) := by
  induction segments generalizing p opened calls with
  | nil =>
    rw [Segment.allCalls, List.append_nil]
    exact h
  | cons s segments ih =>
    rw [Segment.allCalls, ← List.append_assoc]
    exact ih (h.plot s)

theorem begun (scale : Float32) : (Plotter.begun scale).KeepsTo scale false [.beginContours none] :=
  ⟨rfl, rfl, rfl⟩

end Plotter.KeepsTo

/-- What is sketched is plotted to a scale as the calls for it, scaled. -/
theorem Sketch.evaluation_eq_scaled (s : Sketch) (scale : Float32) :
    s.evaluation scale = s.unscaled.scaled scale := by
  have drawn := (Plotter.KeepsTo.begun scale).plotAll s.segments
  have ended := drawn.closeOpen.send .endContours
  cases h : s.ending.fault? with
  | none =>
    rw [evaluation_of_none h, ended.calls_eq]
    simp only [unscaled, h]
    rfl
  | some fault =>
    rw [evaluation_of_some h, drawn.calls_eq]
    simp only [unscaled, h]
    rfl

/-- An evaluation makes the calls for the list of instructions to its scale. -/
theorem evaluate_eq_scaled (scale : Float32) (list : List Instruction) :
    evaluate scale list = (unscaled list).scaled scale :=
  (Frame.new.fst_evaluate_eq scale list).trans (Sketch.evaluation_eq_scaled _ scale)

/-! ### What instructions go by -/

namespace Drawing

/-- The last control point of `flex1` is further from the start along the horizontal than it is along
the vertical. -/
def flex1Horizontal (pen : Point) (args : List Float32) : Bool :=
  match args with
  | [a, b, c, d, e, f, g, h, i, j, _] =>
    let s := ((((pen.shift a b).shift c d).shift e f).shift g h).shift i j
    (s.x - pen.x).abs > (s.y - pen.y).abs
  | _ => false

/-- Along the other axis `flex1` ends where it started. -/
theorem level_flex1 {pen stop : Point} {args : List Float32}
    (h : (flex1 pen args).outcome = .ok stop) :
    if flex1Horizontal pen args then stop.y = pen.y else stop.x = pen.x := by
  unfold flex1 at h
  split at h
  · cases h
    simp only [flex1Horizontal, decide_eq_true_eq]
    split
    · rfl
    · rfl
  · cases h

end Drawing

/-- What a run goes by at an instruction, or after the last one. -/
structure Moment where
  /-- Where the pen is. -/
  pen : Point
  /-- The operands that wait. -/
  operands : List Float32
  /-- The instruction. -/
  instruction? : Option Instruction
  /-- For `flex1`, whether it goes along the horizontal. -/
  horizontal? : Option Bool

/-- Where `flex1` goes along an axis, the pen is level with where it was at the next moment. -/
def Moment.Leads (m next : Moment) : Prop :=
  ∀ horizontal, m.horizontal? = some horizontal →
    if horizontal then next.pen.y = m.pen.y else next.pen.x = m.pen.x

namespace Frame

/-- The moment at which an instruction is performed in a frame. -/
def moment (f : Frame) (i : Instruction) : Moment :=
  let taken := (i.taken.operands i.value).map operandOfInt32
  ⟨f.pen, f.stack.toList, some i,
    if i.op = .draw .flex1 then some (Drawing.flex1Horizontal f.pen (f.stack.toList ++ taken))
    else none⟩

/-- The moment after the last instruction. -/
def lastMoment (f : Frame) : Moment := ⟨f.pen, f.stack.toList, none, none⟩

/-- The moments of a run, the first one first. -/
def moments (f : Frame) (p : Plotter) : List Instruction → List Moment
  | [] => [f.lastMoment]
  | i :: rest =>
    f.moment i ::
      match f.step p i with
      | .next g q => g.moments q rest
      | .halt g _ => [g.lastMoment]
      | .fail _ _ => []

theorem Alike.moment_eq {f g : Frame} (h : f.Alike g) (i : Instruction) :
    f.moment i = g.moment i := by
  simp only [moment, h.pen, h.operands]

theorem Alike.lastMoment_eq {f g : Frame} (h : f.Alike g) : f.lastMoment = g.lastMoment := by
  simp only [lastMoment, h.pen, h.operands]

/-- Whatever plotters take in what is drawn, frames that are alike go through the same moments. -/
theorem Alike.moments_eq {f g : Frame} (h : f.Alike g) (p q : Plotter) (list : List Instruction) :
    f.moments p list = g.moments q list := by
  induction list generalizing f g p q with
  | nil => exact congrArg (fun m => [m]) h.lastMoment_eq
  | cons i rest ih =>
    have alike := (h.sketch i).ending
    rw [moments, moments, h.moment_eq i, step_eq, step_eq]
    generalize f.sketch i = s at alike ⊢
    generalize g.sketch i = t at alike ⊢
    obtain ⟨segments, ending⟩ := s
    obtain ⟨segments', ending'⟩ := t
    refine congrArg (g.moment i :: ·) ?_
    cases alike with
    | next alike => exact ih alike _ _
    | halt alike => exact congrArg (fun m => [m]) alike.lastMoment_eq
    | fail => rfl

/-- The pen is where it is in the frame when its run begins. -/
theorem exists_moments (f : Frame) (p : Plotter) (list : List Instruction) :
    ∃ m rest, f.moments p list = m :: rest ∧ m.pen = f.pen := by
  cases list with
  | nil => exact ⟨_, _, rfl, rfl⟩
  | cons i rest => exact ⟨_, _, rfl, rfl⟩

/-- If `flex1` does not fail, it leads back to where it started, along the axis that is told. -/
theorem step_flex1 (f : Frame) (p : Plotter) (taken : Taken) (value : Int32) :
    (∃ g q, f.step p ⟨.draw .flex1, taken, value⟩ = .next g q ∧
      if Drawing.flex1Horizontal f.pen (f.stack.toList ++ (taken.operands value).map operandOfInt32) then
        g.pen.y = f.pen.y
      else g.pen.x = f.pen.x) ∨
      ∃ fault q, f.step p ⟨.draw .flex1, taken, value⟩ = .fail fault q := by
  simp only [step]
  cases pushed : f.stack.pushAll ((taken.operands value).map operandOfInt32) with
  | error fault => exact .inr ⟨_, _, rfl⟩
  | ok stack =>
    rw [← ArgStack.toList_pushAll pushed]
    change (∃ g q, Frame.drawn { f with stack } p (Drawing.flex1 f.pen stack.toList) = .next g q ∧ _) ∨
      ∃ fault q, Frame.drawn { f with stack } p (Drawing.flex1 f.pen stack.toList) = .fail fault q
    unfold drawn
    cases outcome : (Drawing.flex1 f.pen stack.toList).outcome with
    | error fault => exact .inr ⟨_, _, rfl⟩
    | ok stop => exact .inl ⟨_, _, rfl, Drawing.level_flex1 outcome⟩

/-- The axis is told at the moment of `flex1` only. -/
theorem moment_horizontal? {f : Frame} {i : Instruction} {horizontal : Bool}
    (h : (f.moment i).horizontal? = some horizontal) : i.op = .draw .flex1 ∧
      Drawing.flex1Horizontal f.pen
        (f.stack.toList ++ (i.taken.operands i.value).map operandOfInt32) = horizontal := by
  simp only [moment] at h
  split at h
  case isTrue flex => exact ⟨flex, Option.some.inj h⟩
  case isFalse => cases h

/-- So it is all along a run. -/
theorem isChain_moments (f : Frame) (p : Plotter) (list : List Instruction) :
    (f.moments p list).IsChain Moment.Leads := by
  induction list generalizing f p with
  | nil => exact List.isChain_singleton _
  | cons i rest ih =>
    rw [moments]
    cases step : f.step p i with
    | next g q =>
      obtain ⟨m, later, same, here⟩ := g.exists_moments q rest
      have chain := ih g q
      simp only [same] at chain ⊢
      refine .cons_cons (fun horizontal told => ?_) chain
      obtain ⟨flex, rfl⟩ := moment_horizontal? told
      obtain ⟨op, taken, value⟩ := i
      cases flex
      rw [here]
      rcases f.step_flex1 p taken value with ⟨g', q', step', level⟩ | ⟨fault, q', step'⟩
      · cases step.symm.trans step'
        exact level
      · cases step.symm.trans step'
    | halt g q =>
      -- Where `flex1` does not fail, the run goes on.
      refine .cons_cons (fun horizontal told => ?_) (List.isChain_singleton _)
      obtain ⟨flex, -⟩ := moment_horizontal? told
      obtain ⟨op, taken, value⟩ := i
      cases flex
      rcases f.step_flex1 p taken value with ⟨g', q', step', -⟩ | ⟨fault, q', step'⟩
      · cases step.symm.trans step'
      · cases step.symm.trans step'
    | fail fault q => exact List.isChain_singleton _

end Frame

/-- **Scale only multiplies.** For a list of instructions there are calls, with or without a fault, and
moments of its run. Whatever the evaluator was used for, and whatever the scale, an evaluation makes as many
calls, of the same kinds and in the same order, and every number that it passes on is the number of that call
multiplied by the scale once. It ends with the same fault, or without one. The run goes through the same
moments: the pen is at the same points, the same operands wait, and `flex1` goes along the same axis, which is
the one along which the pen comes back to where it was. -/
theorem evaluate_scaled (list : List Instruction) :
    ∃ (calls : List Call) (fault : Option FontFault) (moments : List Moment),
      moments.IsChain Moment.Leads ∧
      ∀ (jobs : List Job) (scale : Float32),
        let e := (Tools.new.performAll jobs).2.evaluator
        (e.evaluate scale list).1 = ⟨calls.map (·.scaled scale), fault⟩ ∧
        (e.evaluate scale list).1.calls.map Call.kind = calls.map Call.kind ∧
        (e.evaluate scale list).1.calls.map Call.coordinates =
          calls.map (fun c => c.coordinates.map fun x => x * scale) ∧
        e.takeOut.1.moments (.begun scale) list = moments := by
  refine ⟨(unscaled list).calls, (unscaled list).fault, Frame.new.moments (.begun 1) list,
    Frame.new.isChain_moments (.begun 1) list, ?_⟩
  intro jobs scale e
  have rested : e.Rested := (Tools.performAll_of_rested Evaluator.rested_new jobs).2
  have scaled : (e.evaluate scale list).1 = (unscaled list).scaled scale :=
    (rested.evaluate_eq scale list).trans (evaluate_eq_scaled scale list)
  refine ⟨scaled, ?kinds, ?coordinates, ?moments⟩
  case kinds =>
    rw [scaled]
    simp only [Evaluation.scaled, List.map_map]
    exact List.map_congr_left fun c _ => c.kind_scaled scale
  case coordinates =>
    rw [scaled]
    simp only [Evaluation.scaled, List.map_map]
    exact List.map_congr_left fun c _ => c.coordinates_scaled scale
  case moments => exact rested.alike_takeOut.moments_eq _ _ list

/-- A move and a line to the scale 2, whatever the evaluator was used for: the pen is at 3 and 4, and then at
3 and 9, and twice as much is passed on. -/
theorem evaluate_scaled_twice :
    let list : List Instruction := [.int 3, .int 4, .plain (.move .rmoveto), .int 5,
      .plain (.draw .vlineto), .plain .endchar]
    ∃ calls : List Call, ∀ jobs,
      let e := (Tools.new.performAll jobs).2.evaluator
      (e.evaluate 2 list).1 = ⟨[.beginContours none, .segment (.move ⟨6, 8⟩), .segment (.line ⟨6, 18⟩),
        .close, .endContours], none⟩ ∧
      calls.map (fun c => c.coordinates.map fun x => x * 2) = [[], [6, 8], [6, 18], [], []] := by
  intro list
  obtain ⟨calls, fault, moments, -, each⟩ := evaluate_scaled list
  refine ⟨calls, fun jobs => ?_⟩
  have fresh : (Evaluator.new.evaluate 2 list).1 =
      ⟨[.beginContours none, .segment (.move ⟨6, 8⟩), .segment (.line ⟨6, 18⟩), .close, .endContours],
        none⟩ := by decide +kernel
  have made := ((each jobs 2).1.trans (each [] 2).1.symm).trans fresh
  refine ⟨made, ?_⟩
  rw [← (each jobs 2).2.2.1, made]
  rfl

end CompactFont
