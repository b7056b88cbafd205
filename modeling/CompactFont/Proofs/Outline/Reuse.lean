import CompactFont.Proofs.Outline.Sketch

/-!
# Evaluators and compactors that are used again

An evaluator takes the frame of the last evaluation for the next one, and a compactor its buffers.
Neither shows: whatever jobs are done with the same tools, and however they end, each comes out as
with tools that were not used before (`Tools.performAll_new`). After an evaluation there is one
frame, with its pen at the origin and no operand waiting.

The slots of a used frame still hold old numbers. Two frames are alike (`Frame.Alike`) if they have
the same pen and the same live operands, and then they lead to the same sketch, step by step. A frame
that was put back is like a new one, so it leads to the same evaluation (`Frame.Alike.evaluate_eq`).
-/

namespace CompactFont

open Charstring

/-! ### Stacks with the same live operands -/

namespace ArgStack

/-- What a push does to the live operands. -/
theorem map_toList_push (s : ArgStack) (x : Float32) :
    toList <$> s.push x =
      if s.toList.length < capacity then .ok (s.toList ++ [x]) else .error .tooManyOperands := by
  rw [length_toList]
  by_cases room : s.depth < capacity
  · obtain ⟨t, ht⟩ : ∃ t, s.push x = .ok t := ⟨_, dif_pos room⟩
    rw [if_pos room, ht, ← toList_push ht]
    rfl
  · rw [if_neg room, push, dif_neg room]
    rfl

theorem map_toList_push_congr {s t : ArgStack} (h : s.toList = t.toList) (x : Float32) :
    toList <$> s.push x = toList <$> t.push x := by
  rw [map_toList_push, map_toList_push, h]

theorem map_toList_pushAll_congr {s t : ArgStack} (h : s.toList = t.toList) (xs : List Float32) :
    toList <$> s.pushAll xs = toList <$> t.pushAll xs := by
  induction xs generalizing s t with
  | nil => exact congrArg Except.ok h
  | cons x xs ih =>
    rw [pushAll, pushAll]
    obtain ⟨u, v, hu, hv, same⟩ | ⟨fault, hs, ht⟩ :=
      ok_or_error_of_map_eq (map_toList_push_congr h x)
    · rw [hu, hv]
      exact ih same
    · rw [hs, ht]

end ArgStack

/-! ### Frames that are alike -/

/-- Two frames have the same pen and the same live operands. -/
structure Frame.Alike (f g : Frame) : Prop where
  /-- The pens are at one point. -/
  pen : f.pen = g.pen
  /-- The same operands wait. -/
  operands : f.stack.toList = g.stack.toList

namespace Frame.Alike

theorem refl (f : Frame) : f.Alike f := ⟨rfl, rfl⟩

theorem trans {f g h : Frame} (fg : f.Alike g) (gh : g.Alike h) : f.Alike h :=
  ⟨fg.pen.trans gh.pen, fg.operands.trans gh.operands⟩

end Frame.Alike

/-- Two endings are of one kind, with frames that are alike or with one fault. -/
inductive Ending.Alike : Ending → Ending → Prop where
  /-- To the next instruction. -/
  | next {f g : Frame} (alike : f.Alike g) : Alike (.next f) (.next g)
  /-- To the end of the outline. -/
  | halt {f g : Frame} {closes : Bool} (alike : f.Alike g) : Alike (.halt f closes) (.halt g closes)
  /-- To a fault. -/
  | fail {fault : FontFault} : Alike (.fail fault) (.fail fault)

namespace Ending.Alike

theorem refl (a : Ending) : a.Alike a := by
  cases a with
  | next f => exact .next (.refl f)
  | halt f closes => exact .halt (.refl f)
  | fail fault => exact .fail

theorem trans {a b c : Ending} (ab : a.Alike b) (bc : b.Alike c) : a.Alike c := by
  cases ab with
  | next fg =>
    cases bc with
    | next gh => exact .next (fg.trans gh)
  | halt fg =>
    cases bc with
    | halt gh => exact .halt (fg.trans gh)
  | fail => exact bc

theorem fault?_eq {a b : Ending} (h : a.Alike b) : a.fault? = b.fault? := by
  cases h <;> rfl

end Ending.Alike

/-- Two sketches have the same segments, and endings that are alike. -/
structure Sketch.Alike (s t : Sketch) : Prop where
  /-- The segments are the same. -/
  segments : s.segments = t.segments
  /-- The endings are alike. -/
  ending : s.ending.Alike t.ending

theorem Sketch.Alike.refl (s : Sketch) : s.Alike s := ⟨rfl, .refl _⟩

theorem Sketch.Alike.trans {s t u : Sketch} (st : s.Alike t) (tu : t.Alike u) : s.Alike u :=
  ⟨st.segments.trans tu.segments, st.ending.trans tu.ending⟩

theorem Sketch.Alike.andThen {s t : Sketch} {next next' : Frame → Sketch} (h : s.Alike t)
    (hnext : ∀ f g : Frame, f.Alike g → (next f).Alike (next' g)) :
    (s.andThen next).Alike (t.andThen next') := by
  obtain ⟨segments, ending⟩ := s
  obtain ⟨segments', ending'⟩ := t
  obtain ⟨same, alike⟩ := h
  obtain rfl : segments = segments' := same
  cases alike with
  | @next f g alike =>
    obtain ⟨same, onward⟩ := hnext f g alike
    exact ⟨congrArg (segments ++ ·) same, onward⟩
  | halt alike => exact ⟨rfl, .halt alike⟩
  | fail => exact ⟨rfl, .fail⟩

/-- Sketches that are alike are plotted to the same evaluation. -/
theorem Sketch.Alike.evaluation_eq {s t : Sketch} (h : s.Alike t) (scale : Float32) :
    s.evaluation scale = t.evaluation scale := by
  simp only [evaluation, h.segments, h.ending.fault?_eq]

namespace Frame

theorem alike_sketchPushed {f g : Frame} (pen : f.pen = g.pen) {a b : Except FontFault ArgStack}
    (h : ArgStack.toList <$> a = ArgStack.toList <$> b) :
    (f.sketchPushed a).Alike (g.sketchPushed b) := by
  obtain ⟨s, t, rfl, rfl, same⟩ | ⟨fault, rfl, rfl⟩ := ok_or_error_of_map_eq h
  · exact ⟨rfl, .next ⟨pen, same⟩⟩
  · exact ⟨rfl, .fail⟩

theorem alike_sketchDrawn (f g : Frame) (drawing : Drawing) :
    (f.sketchDrawn drawing).Alike (g.sketchDrawn drawing) := by
  obtain ⟨segments, outcome⟩ := drawing
  cases outcome with
  | ok stop => exact ⟨rfl, .next ⟨rfl, rfl⟩⟩
  | error fault => exact ⟨rfl, .fail⟩

/-- No operation reads more of a frame than its pen and the live operands. -/
theorem Alike.sketchOperation {f g : Frame} (h : f.Alike g) (i : Instruction) :
    (f.sketchOperation i).Alike (g.sketchOperation i) := by
  obtain ⟨op, taken, value⟩ := i
  cases op with
  | load form =>
    cases form with
    | int => exact alike_sketchPushed h.pen (ArgStack.map_toList_push_congr h.operands _)
    | fixed => exact alike_sketchPushed h.pen (ArgStack.map_toList_push_congr h.operands _)
    | _ => exact alike_sketchPushed h.pen (ArgStack.map_toList_pushAll_congr h.operands _)
  | move kind =>
    simp only [Frame.sketchOperation, h.pen, h.operands]
    exact alike_sketchDrawn f g _
  | draw kind =>
    simp only [Frame.sketchOperation, h.pen, h.operands]
    exact alike_sketchDrawn f g _
  | width => exact ⟨rfl, .next h⟩
  | arithmetic kind => exact ⟨rfl, .next h⟩
  | stem kind => exact ⟨rfl, .next ⟨h.pen, rfl⟩⟩
  | mask kind form => exact ⟨rfl, .next ⟨h.pen, rfl⟩⟩
  | endchar => exact ⟨rfl, .halt ⟨h.pen, rfl⟩⟩
  | ret => exact ⟨rfl, .halt ⟨h.pen, rfl⟩⟩
  | call scope => exact ⟨rfl, .fail⟩

theorem Alike.sketch {f g : Frame} (h : f.Alike g) (i : Instruction) :
    (f.sketch i).Alike (g.sketch i) := by
  have loaded := ArgStack.map_toList_pushAll_congr h.operands
    ((i.taken.operands i.value).map operandOfInt32)
  obtain ⟨s, t, hs, ht, same⟩ | ⟨fault, hs, ht⟩ := ok_or_error_of_map_eq loaded
  · have alike : Alike { f with stack := s } { g with stack := t } := ⟨h.pen, same⟩
    simpa only [Frame.sketch, hs, ht] using alike.sketchOperation i
  · simpa only [Frame.sketch, hs, ht] using ⟨rfl, .fail⟩

theorem Alike.sketchAll {f g : Frame} (h : f.Alike g) (list : List Instruction) :
    (f.sketchAll list).Alike (g.sketchAll list) := by
  induction list generalizing f g with
  | nil => exact ⟨rfl, .next h⟩
  | cons i rest ih => exact (h.sketch i).andThen fun f g alike => ih alike

/-- Frames that are alike lead to the same evaluation. -/
theorem Alike.evaluate_eq {f g : Frame} (h : f.Alike g) (scale : Float32)
    (list : List Instruction) : (f.evaluate scale list).1 = (g.evaluate scale list).1 := by
  rw [fst_evaluate_eq, fst_evaluate_eq]
  exact (h.sketchAll list).evaluation_eq scale

/-- The pen is at the origin and no operand waits. -/
def Idle (f : Frame) : Prop := f.pen = .origin ∧ f.stack.toList = []

theorem idle_reset (f : Frame) : f.reset.Idle := ⟨rfl, rfl⟩

theorem Idle.alike_new {f : Frame} (h : f.Idle) : f.Alike new := ⟨h.1, h.2⟩

end Frame

/-! ### Evaluators between evaluations -/

namespace Evaluator

/-- The evaluator was not used yet, or has one frame, which is idle. -/
def Rested (e : Evaluator) : Prop := e.frames = [] ∨ ∃ f, e.frames = [f] ∧ f.Idle

theorem rested_new : new.Rested := .inl rfl

/-- Whatever came of the evaluation, one idle frame is left. -/
theorem Rested.exists_frames_evaluate {e : Evaluator} (h : e.Rested) (scale : Float32)
    (list : List Instruction) : ∃ f, (e.evaluate scale list).2.frames = [f] ∧ f.Idle := by
  obtain ⟨frames⟩ := e
  rcases h with none | ⟨f, one, -⟩
  · obtain rfl : frames = [] := none
    exact ⟨_, rfl, Frame.idle_reset _⟩
  · obtain rfl : frames = [f] := one
    exact ⟨_, rfl, Frame.idle_reset _⟩

/-- The frame that is taken out is like a new one. -/
theorem Rested.alike_takeOut {e : Evaluator} (h : e.Rested) : e.takeOut.1.Alike .new := by
  obtain ⟨frames⟩ := e
  rcases h with none | ⟨f, one, idle⟩
  · obtain rfl : frames = [] := none
    exact ⟨rfl, rfl⟩
  · obtain rfl : frames = [f] := one
    exact idle.alike_new

theorem Rested.evaluate_eq {e : Evaluator} (h : e.Rested) (scale : Float32)
    (list : List Instruction) : (e.evaluate scale list).1 = CompactFont.evaluate scale list :=
  h.alike_takeOut.evaluate_eq scale list

end Evaluator

theorem Charstring.Compactor.fst_compact (c : Compactor) (list : List Instruction) :
    (c.compact list).1 = Charstring.compact list := rfl

/-! ### Tools and jobs -/

/-- An evaluator and a compactor that are used for job after job. -/
structure Tools where
  /-- The evaluator. -/
  evaluator : Evaluator
  /-- The compactor. -/
  compactor : Compactor

/-- What is done with tools. -/
inductive Job where
  /-- A list is evaluated to a scale. -/
  | evaluate (scale : Float32) (list : List Instruction)
  /-- A list is compacted. -/
  | compact (list : List Instruction)

/-- What comes of a job. -/
inductive Product where
  /-- An evaluation. -/
  | evaluation (evaluation : Evaluation)
  /-- The compacted list. -/
  | compacted (list : List Instruction)

/-- What comes of a job with tools that were not used before. -/
def Job.alone : Job → Product
  | .evaluate scale list => .evaluation (CompactFont.evaluate scale list)
  | .compact list => .compacted (Charstring.compact list)

namespace Tools

/-- Tools that were not used yet. -/
def new : Tools := ⟨.new, .new⟩

/-- Does a job. -/
def perform (t : Tools) : Job → Product × Tools
  | .evaluate scale list =>
    let (evaluation, evaluator) := t.evaluator.evaluate scale list
    (.evaluation evaluation, { t with evaluator })
  | .compact list =>
    let (list, compactor) := t.compactor.compact list
    (.compacted list, { t with compactor })

/-- Does jobs, one after the other. -/
def performAll (t : Tools) : List Job → List Product × Tools
  | [] => ([], t)
  | job :: jobs =>
    let (product, t) := t.perform job
    let (products, t) := t.performAll jobs
    (product :: products, t)

/-- A job comes out as with new tools, and leaves the evaluator rested. -/
theorem perform_eq {t : Tools} (h : t.evaluator.Rested) (job : Job) :
    (t.perform job).1 = job.alone ∧ (t.perform job).2.evaluator.Rested := by
  cases job with
  | evaluate scale list =>
    exact ⟨congrArg Product.evaluation (h.evaluate_eq scale list),
      .inr (h.exists_frames_evaluate scale list)⟩
  | compact list => exact ⟨congrArg Product.compacted (t.compactor.fst_compact list), h⟩

theorem performAll_of_rested {t : Tools} (h : t.evaluator.Rested) (jobs : List Job) :
    (t.performAll jobs).1 = jobs.map Job.alone ∧ (t.performAll jobs).2.evaluator.Rested := by
  induction jobs generalizing t with
  | nil => exact ⟨rfl, h⟩
  | cons job jobs ih =>
    obtain ⟨product, rested⟩ := perform_eq h job
    obtain ⟨products, restedAfter⟩ := ih rested
    exact ⟨by simp [performAll, product, products], restedAfter⟩

theorem snd_performAll_concat (t : Tools) (jobs : List Job) (job : Job) :
    (t.performAll (jobs ++ [job])).2 = ((t.performAll jobs).2.perform job).2 := by
  induction jobs generalizing t with
  | nil => rfl
  | cons first jobs ih => exact ih _

/-- **Nothing of a job shows in the next.** Whatever lists are evaluated, to whatever scales, and
compacted with the same tools, with or without faults: every job comes out as with new tools, and
after each evaluation the evaluator has one frame, with its pen at the origin and no operand
waiting. -/
theorem performAll_new (jobs : List Job) :
    (new.performAll jobs).1 = jobs.map Job.alone ∧
      ∀ scale list, ∃ f, (new.performAll (jobs ++ [.evaluate scale list])).2.evaluator.frames = [f] ∧
        f.pen = .origin ∧ f.stack.toList = [] := by
  obtain ⟨products, rested⟩ := performAll_of_rested (t := new) Evaluator.rested_new jobs
  refine ⟨products, fun scale list => ?_⟩
  rw [snd_performAll_concat]
  exact rested.exists_frames_evaluate scale list

end Tools

end CompactFont
