import CompactFont.Proofs.Outline.Sketch

/-!
# Where the pen is

The pen is where the last segment ended, and at the origin before the first one: whatever operators
draw, they take the pen along (`Frame.pen_of_run`). So each segment starts where the one before it
ended.

There is one exception. `hhcurveto` and `vvcurveto` may be given a distance before their curves, by
which the pen is shifted first. If this distance is their only operand there are no curves, and the
pen is shifted without a segment (`Frame.LoneLead`); what is drawn next starts from there
(`run_loneLead`).
-/

namespace CompactFont

open Charstring

/-- Where the pen is after segments: at the end of the last one, or where it was if there is none. -/
def penAfter (pen : Point) (segments : List Segment) : Point :=
  (segments.getLast?.map Segment.stop).getD pen

@[simp] theorem penAfter_nil (pen : Point) : penAfter pen [] = pen := rfl

@[simp] theorem penAfter_cons (pen : Point) (s : Segment) (segments : List Segment) :
    penAfter pen (s :: segments) = penAfter s.stop segments := by
  cases segments <;> simp [penAfter, List.getLast?_cons]

theorem penAfter_append (pen : Point) (segments others : List Segment) :
    penAfter pen (segments ++ others) = penAfter (penAfter pen segments) others := by
  induction segments generalizing pen with
  | nil => rfl
  | cons s segments ih => simp [ih]

theorem penAfter_of_ne_nil {segments : List Segment} (h : segments ≠ []) (pen other : Point) :
    penAfter pen segments = penAfter other segments := by
  cases segments with
  | nil => exact absurd rfl h
  | cons s segments => simp

/-! ### What is drawn takes the pen along -/

namespace Drawing

/-- Unless the drawing goes wrong, the pen ends where the last segment does. -/
def Leads (d : Drawing) (pen : Point) : Prop :=
  ∀ stop, d.outcome = .ok stop → stop = penAfter pen d.segments

theorem leads_rest (pen : Point) : (rest pen).Leads pen := by
  intro stop h
  cases h
  rfl

theorem leads_refuse (pen : Point) : refuse.Leads pen := nofun

theorem leads_guarded {c : Prop} [Decidable c] {d : Drawing} {pen : Point}
    (h : c → d.Leads pen) : (if c then d else refuse).Leads pen := by
  by_cases hc : c
  · simpa [hc] using h hc
  · simpa [hc] using leads_refuse pen

theorem leads_refused {c : Prop} [Decidable c] {d : Drawing} {pen : Point} (h : d.Leads pen) :
    (if c then refuse else d).Leads pen := by
  by_cases hc : c
  · simpa [hc] using leads_refuse pen
  · simpa [hc] using h

theorem Leads.after {d : Drawing} {s : Segment} (h : d.Leads s.stop) (pen : Point) :
    (d.after s).Leads pen := by
  intro stop hstop
  simpa [Drawing.after] using h stop hstop

theorem leads_one (s : Segment) (pen : Point) : (one s).Leads pen := (leads_rest s.stop).after pen

theorem Leads.andThen {d : Drawing} {pen : Point} {next : Point → Drawing} (h : d.Leads pen)
    (hnext : ∀ pen, (next pen).Leads pen) : (d.andThen next).Leads pen := by
  intro stop hstop
  unfold Drawing.andThen at hstop ⊢
  cases hd : d.outcome with
  | error fault => simp [hd] at hstop
  | ok middle =>
    simp only [hd] at hstop ⊢
    rw [penAfter_append, ← h middle hd]
    exact hnext middle stop hstop

/-- The pen does not count where something is drawn. -/
theorem Leads.of_ne_nil {d : Drawing} {pen : Point} (h : d.Leads pen) (drawn : d.segments ≠ [])
    (other : Point) : d.Leads other := by
  intro stop hstop
  rw [penAfter_of_ne_nil drawn other pen]
  exact h stop hstop

/-! ### Chains -/

theorem leads_lines (pen : Point) (args : List Float32) : (lines pen args).Leads pen := by
  fun_induction lines pen args with
  | case1 pen a b args s ih => exact ih.after pen
  | case2 => exact leads_rest _

theorem leads_alternatingLines (horizontal : Bool) (pen : Point) (args : List Float32) :
    (alternatingLines horizontal pen args).Leads pen := by
  fun_induction alternatingLines horizontal pen args with
  | case1 horizontal pen a args s ih => exact ih.after pen
  | case2 => exact leads_rest _

theorem leads_curves (pen : Point) (args : List Float32) : (curves pen args).Leads pen := by
  fun_induction curves pen args with
  | case1 pen a b c d e f args s ih => exact ih.after pen
  | case2 => exact leads_rest _

theorem leads_curvesAlong (one : Point → Float32 → Float32 → Float32 → Float32 → Segment)
    (pen : Point) (args : List Float32) : (curvesAlong one pen args).Leads pen := by
  fun_induction curvesAlong one pen args with
  | case1 pen a b c d args s ih => exact ih.after pen
  | case2 => exact leads_rest _

theorem leads_alternatingCurves (horizontal : Bool) (pen : Point) (args : List Float32) :
    (alternatingCurves horizontal pen args).Leads pen := by
  fun_induction alternatingCurves horizontal pen args with
  | case1 => exact leads_rest _
  | case2 => exact leads_one _ _
  | case3 horizontal pen a b c d args more s ih => exact ih.after pen
  | case4 => exact leads_refuse _

/-- Enough operands for a curve draw one. -/
theorem segments_curvesAlong_ne_nil
    (one : Point → Float32 → Float32 → Float32 → Float32 → Segment) (pen : Point)
    {args : List Float32} (h : 4 ≤ args.length) : (curvesAlong one pen args).segments ≠ [] := by
  match args, h with
  | a :: b :: c :: d :: args, _ => simp [curvesAlong, Drawing.after]

/-! ### Operators -/

theorem leads_ofMove (kind : Move) (pen : Point) (args : List Float32) :
    (ofMove kind pen args).Leads pen := by
  unfold ofMove
  split
  · exact leads_one _ pen
  · exact leads_one _ pen
  · exact leads_one _ pen
  · exact leads_refuse pen

/-- A distance before the curves does not count once a curve is drawn. -/
theorem leads_leading (shift : Point → Float32 → Point)
    (one : Point → Float32 → Float32 → Float32 → Float32 → Segment) (pen : Point)
    {args : List Float32} (notLone : args.length ≠ 1)
    (full : (leading shift pen args).2.length % 4 = 0) :
    (curvesAlong one (leading shift pen args).1 (leading shift pen args).2).Leads pen := by
  cases args with
  | nil => exact leads_curvesAlong one pen []
  | cons a others =>
    by_cases odd : (a :: others).length % 2 = 1
    · have hleading : leading shift pen (a :: others) = (shift pen a, others) := if_pos odd
      rw [hleading] at full ⊢
      have enough : 4 ≤ others.length := by
        simp only [List.length_cons] at notLone odd full
        omega
      exact (leads_curvesAlong one _ others).of_ne_nil (segments_curvesAlong_ne_nil one _ enough) pen
    · have hleading : leading shift pen (a :: others) = (pen, a :: others) := if_neg odd
      rw [hleading]
      exact leads_curvesAlong one pen (a :: others)

/-- An operator that draws leads the pen, unless it gets nothing but a distance before curves. -/
theorem leads_ofDraw (kind : Draw) (pen : Point) (args : List Float32)
    (notLone : kind = .hhcurveto ∨ kind = .vvcurveto → args.length ≠ 1) :
    (ofDraw kind pen args).Leads pen := by
  cases kind with
  | rlineto => exact leads_guarded fun _ => leads_lines pen args
  | hlineto => exact leads_refused (leads_alternatingLines true pen args)
  | vlineto => exact leads_refused (leads_alternatingLines false pen args)
  | rrcurveto => exact leads_guarded fun _ => leads_curves pen args
  | hhcurveto => exact leads_guarded (leads_leading _ _ pen (notLone (.inl rfl)))
  | hvcurveto => exact leads_refused (leads_alternatingCurves true pen args)
  | rcurveline =>
    exact leads_guarded fun _ => (leads_curves pen _).andThen fun pen => leads_lines pen _
  | rlinecurve =>
    exact leads_guarded fun _ => (leads_lines pen _).andThen fun pen => leads_curves pen _
  | vhcurveto => exact leads_refused (leads_alternatingCurves false pen args)
  | vvcurveto => exact leads_guarded (leads_leading _ _ pen (notLone (.inr rfl)))
  | flex => exact leads_guarded fun _ => leads_curves pen _
  | hflex | hflex1 | flex1 =>
    simp only [ofDraw, hflex, hflex1, flex1]
    split
    · exact (leads_one _ _).after pen
    · exact leads_refuse pen

end Drawing

/-! ### Steps and runs -/

/-- The load of operands onto the stack of a frame. -/
theorem ArgStack.toList_pushAll {s t : ArgStack} {xs : List Float32} (h : s.pushAll xs = .ok t) :
    t.toList = s.toList ++ xs := by
  induction xs generalizing s with
  | nil =>
    cases h
    simp
  | cons x xs ih =>
    obtain ⟨u, hu, h⟩ := bind_eq_ok.mp h
    rw [ih h, toList_push hu, List.append_assoc, List.singleton_append]

/-- Unless it goes wrong, the pen ends where the last segment does. -/
def Sketch.Leads (s : Sketch) (pen : Point) : Prop :=
  ∀ g, s.ending.frame? = some g → g.pen = penAfter pen s.segments

theorem Sketch.Leads.andThen {s : Sketch} {pen : Point} {next : Frame → Sketch} (h : s.Leads pen)
    (hnext : ∀ f, s.ending = .next f → (next f).Leads f.pen) : (s.andThen next).Leads pen := by
  obtain ⟨segments, ending⟩ := s
  cases ending with
  | next f =>
    intro g hg
    rw [Sketch.andThen, penAfter_append, ← h f rfl]
    exact hnext f rfl g hg
  | halt f closes => exact h
  | fail fault => exact h

namespace Frame

/-- The instruction is `hhcurveto` or `vvcurveto`, and finds one operand only. -/
def LoneLead (f : Frame) (i : Instruction) : Prop :=
  (i.op = .draw .hhcurveto ∨ i.op = .draw .vvcurveto) ∧
    f.stack.depth + (i.taken.operands i.value).length = 1

instance (f : Frame) (i : Instruction) : Decidable (f.LoneLead i) :=
  inferInstanceAs (Decidable (_ ∧ _))

theorem leads_sketchPushed (f : Frame) (pushes : Except FontFault ArgStack) :
    (f.sketchPushed pushes).Leads f.pen := by
  intro g hg
  cases pushes with
  | ok stack =>
    cases hg
    rfl
  | error fault => cases hg

theorem leads_sketchDrawn (f : Frame) {drawing : Drawing} (h : drawing.Leads f.pen) :
    (f.sketchDrawn drawing).Leads f.pen := by
  obtain ⟨segments, outcome⟩ := drawing
  intro g hg
  cases outcome with
  | ok stop =>
    cases hg
    exact h stop rfl
  | error fault => cases hg

theorem leads_sketchOperation (f : Frame) (i : Instruction)
    (notLone : i.op = .draw .hhcurveto ∨ i.op = .draw .vvcurveto → f.stack.toList.length ≠ 1) :
    (f.sketchOperation i).Leads f.pen := by
  obtain ⟨op, taken, value⟩ := i
  cases op with
  | load form => cases form <;> exact f.leads_sketchPushed _
  | move kind => exact f.leads_sketchDrawn (Drawing.leads_ofMove kind f.pen _)
  | draw kind =>
    exact f.leads_sketchDrawn (Drawing.leads_ofDraw kind f.pen _ (by simpa using notLone))
  | call scope => exact nofun
  | _ =>
    intro g hg
    cases hg
    rfl

theorem leads_sketch {f : Frame} {i : Instruction} (paired : ¬ f.LoneLead i) :
    (f.sketch i).Leads f.pen := by
  unfold sketch
  cases h : f.stack.pushAll ((i.taken.operands i.value).map operandOfInt32) with
  | error fault => exact nofun
  | ok stack =>
    refine leads_sketchOperation { f with stack } i fun op one => paired ⟨op, ?_⟩
    simpa [ArgStack.toList_pushAll h] using one

theorem leads_sketchAll {f : Frame} {list : List Instruction}
    (paired : ∀ step ∈ f.performed list, ¬ step.1.LoneLead step.2) :
    (f.sketchAll list).Leads f.pen := by
  induction list generalizing f with
  | nil =>
    intro g hg
    cases hg
    rfl
  | cons i rest ih =>
    refine (leads_sketch (paired (f, i) (by simp [performed]))).andThen fun g hg => ih ?_
    intro step mem
    exact paired step (by simpa [performed, hg] using .inr mem)

end Frame

/-! ### The segments among the calls -/

/-- The segment that a call is for, if it is for one. -/
def Call.segment? : Call → Option Segment
  | .segment s => some s
  | _ => none

namespace Plotter

/-- The segments that were passed on, in order. -/
def segments (p : Plotter) : List Segment := p.calls.filterMap Call.segment?

theorem segments_closeOpen (p : Plotter) : p.closeOpen.segments = p.segments := by
  by_cases h : p.contourOpen
  · simp [segments, closeOpen_of_open h, Call.scaled, Call.segment?]
  · rw [closeOpen_of_shut (by simpa using h)]

@[simp] theorem scale_closeOpen (p : Plotter) : p.closeOpen.scale = p.scale := by
  by_cases h : p.contourOpen
  · rw [closeOpen_of_open h, scale_send]
  · rw [closeOpen_of_shut (by simpa using h)]

theorem segments_send (p : Plotter) (s : Segment) :
    (p.send (.segment s)).segments = p.segments ++ [s.scaled p.scale] := by
  simp [segments, Call.scaled, Call.segment?]

theorem segments_plot (p : Plotter) (s : Segment) :
    (p.plot s).segments = p.segments ++ [s.scaled p.scale] := by
  cases s with
  | move stop => rw [plot, segments_send, segments_closeOpen, scale_closeOpen]
  | _ => exact p.segments_send _

theorem scale_plot (p : Plotter) (s : Segment) : (p.plot s).scale = p.scale := by
  cases s <;> simp [plot]

theorem segments_plotAll (p : Plotter) (segments : List Segment) :
    (p.plotAll segments).segments = p.segments ++ segments.map (·.scaled p.scale) := by
  induction segments generalizing p with
  | nil => simp
  | cons s segments ih => simp [ih, segments_plot, scale_plot]

/-- Segments that are no moves are passed on, and nothing else is. -/
theorem calls_plotAll {segments : List Segment} (drawn : ∀ stop, .move stop ∉ segments)
    (p : Plotter) : (p.plotAll segments).calls =
      p.calls ++ segments.map fun s => .segment (s.scaled p.scale) := by
  induction segments generalizing p with
  | nil => exact (List.append_nil _).symm
  | cons s segments ih =>
    have sent : (p.plot s).calls = p.calls ++ [.segment (s.scaled p.scale)] := by
      cases s with
      | move stop => exact absurd List.mem_cons_self (drawn stop)
      | _ => exact p.calls_send _
    have others (stop : Point) : .move stop ∉ segments := fun h => drawn stop (List.mem_cons_of_mem s h)
    rw [plotAll_cons, ih others, sent, scale_plot, List.append_assoc]
    rfl

end Plotter

/-- A plotter passes on just the segments of a sketch, to its scale. -/
theorem Sketch.segments_plotted (s : Sketch) (scale : Float32) :
    (s.plotted (.begun scale)).segments = s.segments.map (·.scaled scale) := by
  have all : ((Plotter.begun scale).plotAll s.segments).segments =
      s.segments.map (·.scaled scale) := Plotter.segments_plotAll _ _
  unfold plotted
  split
  · rw [Plotter.segments_closeOpen, all]
  · exact all

/-! ### Runs -/

/-- **The pen never moves silently.** When instructions were performed without a fault, in a frame
whose pen was at the origin, the pen is where the last move, line or curve ended, and at the origin if
there was none; unless `hhcurveto` or `vvcurveto` was performed with one operand. The calls for moves,
lines and curves are, to each scale, for these segments. -/
theorem Frame.pen_of_run {f g : Frame} {scale : Float32} {p : Plotter} {list : List Instruction}
    (start : f.pen = .origin) (h : f.run (.begun scale) list = (g, p, none))
    (paired : ∀ step ∈ f.performed list, ¬ step.1.LoneLead step.2) :
    ∃ segments, g.pen = penAfter .origin segments ∧
      ∀ scale, ∃ p, f.run (.begun scale) list = (g, p, none) ∧
        p.calls.filterMap Call.segment? = segments.map (·.scaled scale) := by
  obtain ⟨left, -⟩ := run_eq_none_iff.mp h
  refine ⟨(f.sketchAll list).segments, ?_, fun scale => ?_⟩
  · rw [← start]
    exact leads_sketchAll paired g left
  · exact ⟨_, run_eq_none_iff.mpr ⟨left, rfl⟩, Sketch.segments_plotted _ scale⟩

/-- A move, then `hhcurveto` with five operands: the first is a distance before the curve, at whose
end the pen is. -/
theorem Frame.pen_of_run_hhcurveto :
    ∃ list g p segments, Frame.new.run (.begun 2) list = (g, p, none) ∧
      (∀ step ∈ Frame.new.performed list, ¬ step.1.LoneLead step.2) ∧
      g.pen = penAfter .origin segments ∧ segments.length = 2 ∧
      p.calls.filterMap Call.segment? = segments.map (·.scaled 2) ∧ g.pen = ⟨10, 8⟩ := by
  let list : List Instruction :=
    [⟨.move .rmoveto, .shorts, 196612⟩, .int 1, ⟨.draw .hhcurveto, .fourBytes, 16909060⟩]
  have run : Frame.new.run (.begun 2) list = (_, _, none) := rfl
  have paired : ∀ step ∈ Frame.new.performed list, ¬ step.1.LoneLead step.2 := by decide
  obtain ⟨segments, pen, each⟩ := Frame.pen_of_run rfl run paired
  obtain ⟨p, hrun, hcalls⟩ := each 2
  have two : (p.calls.filterMap Call.segment?).length = 2 := by
    cases hrun
    rfl
  refine ⟨list, _, p, segments, hrun, paired, pen, ?_, hcalls, by decide +kernel⟩
  rwa [hcalls, List.length_map] at two

/-- With one operand, `hhcurveto` shifts the pen and draws nothing; the line after it does not start
where the pen was before. -/
theorem run_loneLead :
    ∃ g p, Frame.new.run (.begun 1) [.int 10, .plain (.draw .hhcurveto)] = (g, p, none) ∧
      p.calls.filterMap Call.segment? = [] ∧ g.pen ≠ .origin ∧
      (evaluate 1 [.int 10, .plain (.draw .hhcurveto), .int 5, .plain (.draw .hlineto)]).calls =
        [.beginContours none, .segment (.line ⟨5, 10⟩), .endContours] :=
  ⟨_, _, rfl, rfl, by decide, by decide⟩

end CompactFont
