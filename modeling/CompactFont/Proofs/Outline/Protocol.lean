import CompactFont.Proofs.Outline.Sketch

/-!
# The order of calls

Whoever takes in an outline can rely on an order of calls (`IsOutline`). It is told that contours
begin, then of the lines and curves that come before the first move, then of the contours one after
the other, each from its move to its close, and last that contours end. An evaluation without a fault
makes these calls, and one with a fault breaks off on the way (`calls_evaluate`).

A plotter that is on the way (`Plotter.Underway`) was told of lines and curves only, or else is in a
contour: no contour is closed before the next one starts or the outline ends. Every segment keeps it
on the way, whatever the operators that draw it; only the close and the end are left to be told.
-/

namespace CompactFont

open Charstring

/-- The call is for a line or a curve. -/
def Call.isStroke : Call → Bool
  | .segment (.line _) | .segment (.curve _ _ _) => true
  | _ => false

/-- The calls for a contour: a move, lines and curves, and a close. -/
def IsContour (calls : List Call) : Prop :=
  ∃ start strokes, calls = .segment (.move start) :: (strokes ++ [.close]) ∧
    ∀ c ∈ strokes, c.isStroke

/-- The calls for an outline: contours begin, lines and curves outside of any contour, contours, and
contours end. -/
def IsOutline (calls : List Call) : Prop :=
  ∃ (loose : List Call) (contours : List (List Call)),
    calls = .beginContours none :: (loose ++ contours.flatten ++ [.endContours]) ∧
    (∀ c ∈ loose, c.isStroke) ∧ ∀ contour ∈ contours, IsContour contour

/-- The calls for an outline so far, where a contour can start and the outline can end. -/
def IsOutlineSoFar (calls : List Call) : Prop :=
  ∃ (loose : List Call) (contours : List (List Call)),
    calls = .beginContours none :: (loose ++ contours.flatten) ∧
    (∀ c ∈ loose, c.isStroke) ∧ ∀ contour ∈ contours, IsContour contour

/-- A plotter is on the way through an outline. -/
inductive Plotter.Underway (p : Plotter) : Prop where
  /-- There was no move yet. -/
  | loose {strokes : List Call} (calls : p.calls = .beginContours none :: strokes)
      (drawn : ∀ c ∈ strokes, c.isStroke) (shut : p.contourOpen = false)
  /-- The contour of the latest move is open, and all contours before it are closed. -/
  | within {before strokes : List Call} {start : Point}
      (calls : p.calls = before ++ .segment (.move start) :: strokes)
      (soFar : IsOutlineSoFar before) (drawn : ∀ c ∈ strokes, c.isStroke)
      (opened : p.contourOpen = true)

/-! ### Parts of an outline -/

theorem isOutlineSoFar_cons {strokes : List Call} (drawn : ∀ c ∈ strokes, c.isStroke) :
    IsOutlineSoFar (.beginContours none :: strokes) :=
  ⟨strokes, [], by simp, drawn, by simp⟩

/-- A contour can come after contours. -/
theorem IsOutlineSoFar.append {calls strokes : List Call} (h : IsOutlineSoFar calls) (start : Point)
    (drawn : ∀ c ∈ strokes, c.isStroke) :
    IsOutlineSoFar (calls ++ .segment (.move start) :: (strokes ++ [.close])) := by
  obtain ⟨loose, contours, rfl, before, closed⟩ := h
  refine ⟨loose, contours ++ [.segment (.move start) :: (strokes ++ [.close])], by simp, before, ?_⟩
  intro contour mem
  rcases List.mem_append.mp mem with mem | mem
  · exact closed contour mem
  · exact ⟨start, strokes, List.mem_singleton.mp mem, drawn⟩

theorem IsOutlineSoFar.isOutline {calls : List Call} (h : IsOutlineSoFar calls) :
    IsOutline (calls ++ [.endContours]) := by
  obtain ⟨loose, contours, rfl, before, closed⟩ := h
  exact ⟨loose, contours, rfl, before, closed⟩

theorem endContours_notMem_of_isStroke {strokes : List Call} (drawn : ∀ c ∈ strokes, c.isStroke) :
    Call.endContours ∉ strokes :=
  fun mem => Bool.false_ne_true (drawn _ mem)

theorem IsOutlineSoFar.endContours_notMem {calls : List Call} (h : IsOutlineSoFar calls) :
    Call.endContours ∉ calls := by
  obtain ⟨loose, contours, rfl, before, closed⟩ := h
  have inContours : ∀ contour ∈ contours, Call.endContours ∉ contour := by
    intro contour mem
    obtain ⟨start, strokes, rfl, drawn⟩ := closed contour mem
    simpa using endContours_notMem_of_isStroke drawn
  simpa [endContours_notMem_of_isStroke before] using inContours

namespace Plotter

/-! ### Plotting on the way -/

theorem underway_begun (scale : Float32) : (begun scale).Underway :=
  .loose rfl (by simp) rfl

/-- A line or a curve belongs to what was drawn before it. -/
theorem Underway.send {p : Plotter} (h : p.Underway) {c : Call}
    (stroke : (c.scaled p.scale).isStroke) (same : c.opens p.contourOpen = p.contourOpen) :
    (p.send c).Underway := by
  have more {strokes : List Call} (drawn : ∀ d ∈ strokes, d.isStroke) :
      ∀ d ∈ strokes ++ [c.scaled p.scale], d.isStroke := by
    intro d mem
    rcases List.mem_append.mp mem with mem | mem
    · exact drawn d mem
    · exact List.mem_singleton.mp mem ▸ stroke
  cases h with
  | loose calls drawn shut =>
    exact .loose (by rw [calls_send, calls, List.cons_append]) (more drawn) (same.trans shut)
  | @within before strokes start calls soFar drawn opened =>
    have grown : (p.send c).calls =
        before ++ .segment (.move start) :: (strokes ++ [c.scaled p.scale]) := by
      rw [calls_send, calls, List.append_assoc, List.cons_append]
    exact .within grown soFar (more drawn) (same.trans opened)

/-- Where the contour that is open is closed, a contour can start and the outline can end. -/
theorem Underway.closeOpen {p : Plotter} (h : p.Underway) : IsOutlineSoFar p.closeOpen.calls := by
  cases h with
  | loose calls drawn shut =>
    rw [closeOpen_of_shut shut, calls]
    exact isOutlineSoFar_cons drawn
  | within calls soFar drawn opened =>
    rw [closeOpen_of_open opened, calls_send, calls, List.append_assoc, List.cons_append]
    exact soFar.append _ drawn

theorem Underway.plot {p : Plotter} (h : p.Underway) (s : Segment) : (p.plot s).Underway := by
  cases s with
  | move start => exact .within (calls_send _ _) h.closeOpen (List.forall_mem_nil _) rfl
  | line stop => exact h.send rfl rfl
  | curve first second stop => exact h.send rfl rfl

theorem Underway.plotAll {p : Plotter} (h : p.Underway) (segments : List Segment) :
    (p.plotAll segments).Underway := by
  induction segments generalizing p with
  | nil => exact h
  | cons s segments ih => exact ih (h.plot s)

/-! ### At the end, or broken off -/

/-- With a close, if it is missing, and the end the calls are those for an outline. -/
theorem Underway.isOutline {p : Plotter} (h : p.Underway) :
    IsOutline (p.closeOpen.send .endContours).calls := by
  rw [calls_send]
  exact h.closeOpen.isOutline

/-- No call is taken back. -/
theorem calls_prefix_closeOpen (p : Plotter) : p.calls <+: p.closeOpen.calls := by
  by_cases h : p.contourOpen
  · rw [closeOpen_of_open h, calls_send]
    exact List.prefix_append _ _
  · simp only [closeOpen_of_shut (by simpa using h), List.prefix_rfl]

theorem Underway.ne_nil {p : Plotter} (h : p.Underway) : p.calls ≠ [] := by
  cases h with
  | loose calls => simp [calls]
  | within calls => simp [calls]

/-- On the way, there was no call for the end. -/
theorem Underway.endContours_notMem {p : Plotter} (h : p.Underway) : .endContours ∉ p.calls :=
  fun mem => h.closeOpen.endContours_notMem (p.calls_prefix_closeOpen.subset mem)

end Plotter

/-! ### Evaluations -/

/-- **The order of calls.** For every list of instructions, every scale and whatever the evaluator was
used for: without a fault the calls are those for an outline. With a fault they are the first calls
for an outline, one at least and not the last; the fault is met in an instruction before which there
is none, and no instruction after it adds a call. -/
theorem calls_evaluate (e : Evaluator) (scale : Float32) (list : List Instruction) :
    match (e.evaluate scale list).1 with
    | ⟨calls, none⟩ => IsOutline calls
    | ⟨calls, some fault⟩ =>
      calls ≠ [] ∧ .endContours ∉ calls ∧ (∃ outline, IsOutline outline ∧ calls <+: outline) ∧
        ∃ done i rest, list = done ++ i :: rest ∧ (e.evaluate scale done).1.fault = none ∧
          ∀ others, (e.evaluate scale (done ++ i :: others)).1 = ⟨calls, some fault⟩ := by
  have each (list : List Instruction) :
      (e.evaluate scale list).1 = (e.takeOut.1.sketchAll list).evaluation scale :=
    e.takeOut.1.fst_evaluate_eq scale list
  have underway := (Plotter.underway_begun scale).plotAll (e.takeOut.1.sketchAll list).segments
  cases hfault : (e.takeOut.1.sketchAll list).ending.fault? with
  | none =>
    simp only [each, Sketch.evaluation_of_none hfault]
    exact underway.isOutline
  | some fault =>
    simp only [each, Sketch.evaluation_of_some hfault]
    refine ⟨underway.ne_nil, underway.endContours_notMem, ⟨_, underway.isOutline, ?_⟩, ?_⟩
    · rw [Plotter.calls_send]
      exact (Plotter.calls_prefix_closeOpen _).trans (List.prefix_append _ _)
    · obtain ⟨done, i, rest, rfl, noFault, same⟩ := Frame.sketchAll_of_fault? hfault
      refine ⟨done, i, rest, rfl, ?_, fun others => ?_⟩
      · rw [Sketch.evaluation_of_none noFault]
      · rw [same, Sketch.evaluation_of_some hfault]

end CompactFont
