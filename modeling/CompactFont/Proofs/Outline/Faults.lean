import CompactFont.Proofs.Charstring.WellFormed
import CompactFont.Proofs.Outline.Pen

/-!
# What goes wrong in evaluations

An evaluation goes wrong for one of three reasons: an operator has a number of operands that it cannot
draw with, there is no room on the stack for an operand, or an instruction calls a subroutine
(`Frame.fault_of_sketchAll`). Decoding leaves no calls, so that the last reason does not come up for a
list that was decoded, compacted or not (`wellFormed_of_decode`).
-/

namespace CompactFont

open Charstring

/-! ### Drawing -/

namespace Drawing

/-- If the drawing goes wrong, the number of operands is to blame. -/
def Counts (d : Drawing) : Prop := ∀ fault, d.outcome = .error fault → fault = .wrongOperandCount

theorem counts_rest (pen : Point) : (rest pen).Counts := nofun

theorem counts_refuse : refuse.Counts := by
  intro fault h
  cases h
  rfl

theorem Counts.after {d : Drawing} (h : d.Counts) (s : Segment) : (d.after s).Counts := h

theorem Counts.andThen {d : Drawing} {next : Point → Drawing} (h : d.Counts)
    (hnext : ∀ pen, (next pen).Counts) : (d.andThen next).Counts := by
  intro fault hfault
  unfold Drawing.andThen at hfault
  cases hd : d.outcome with
  | error fault' =>
    simp only [hd] at hfault
    cases hfault
    exact h fault hd
  | ok middle =>
    simp only [hd] at hfault
    exact hnext middle fault hfault

theorem counts_ite {c : Prop} [Decidable c] {d d' : Drawing} (h : d.Counts) (h' : d'.Counts) :
    (if c then d else d').Counts := by
  by_cases hc : c
  · simpa [hc] using h
  · simpa [hc] using h'

theorem counts_lines (pen : Point) (args : List Float32) : (lines pen args).Counts := by
  fun_induction lines pen args with
  | case1 pen a b args s ih => exact ih.after s
  | case2 => exact counts_rest _

theorem counts_alternatingLines (horizontal : Bool) (pen : Point) (args : List Float32) :
    (alternatingLines horizontal pen args).Counts := by
  fun_induction alternatingLines horizontal pen args with
  | case1 horizontal pen a args s ih => exact ih.after s
  | case2 => exact counts_rest _

theorem counts_curves (pen : Point) (args : List Float32) : (curves pen args).Counts := by
  fun_induction curves pen args with
  | case1 pen a b c d e f args s ih => exact ih.after s
  | case2 => exact counts_rest _

theorem counts_curvesAlong (one : Point → Float32 → Float32 → Float32 → Float32 → Segment)
    (pen : Point) (args : List Float32) : (curvesAlong one pen args).Counts := by
  fun_induction curvesAlong one pen args with
  | case1 pen a b c d args s ih => exact ih.after s
  | case2 => exact counts_rest _

theorem counts_alternatingCurves (horizontal : Bool) (pen : Point) (args : List Float32) :
    (alternatingCurves horizontal pen args).Counts := by
  fun_induction alternatingCurves horizontal pen args with
  | case1 => exact counts_rest _
  | case2 => exact (counts_rest _).after _
  | case3 horizontal pen a b c d args more s ih => exact ih.after s
  | case4 => exact counts_refuse

theorem counts_ofMove (kind : Move) (pen : Point) (args : List Float32) :
    (ofMove kind pen args).Counts := by
  unfold ofMove
  split
  · exact (counts_rest _).after _
  · exact (counts_rest _).after _
  · exact (counts_rest _).after _
  · exact counts_refuse

theorem counts_ofDraw (kind : Draw) (pen : Point) (args : List Float32) :
    (ofDraw kind pen args).Counts := by
  cases kind with
  | rlineto => exact counts_ite (counts_lines pen args) counts_refuse
  | hlineto => exact counts_ite counts_refuse (counts_alternatingLines true pen args)
  | vlineto => exact counts_ite counts_refuse (counts_alternatingLines false pen args)
  | rrcurveto => exact counts_ite (counts_curves pen args) counts_refuse
  | hhcurveto => exact counts_ite (counts_curvesAlong _ _ _) counts_refuse
  | hvcurveto => exact counts_ite counts_refuse (counts_alternatingCurves true pen args)
  | rcurveline =>
    exact counts_ite ((counts_curves pen _).andThen fun pen => counts_lines pen _) counts_refuse
  | rlinecurve =>
    exact counts_ite ((counts_lines pen _).andThen fun pen => counts_curves pen _) counts_refuse
  | vhcurveto => exact counts_ite counts_refuse (counts_alternatingCurves false pen args)
  | vvcurveto => exact counts_ite (counts_curvesAlong _ _ _) counts_refuse
  | flex => exact counts_ite (counts_curves pen _) counts_refuse
  | hflex | hflex1 | flex1 =>
    simp only [ofDraw, hflex, hflex1, flex1]
    split
    · exact ((counts_rest _).after _).after _
    · exact counts_refuse

end Drawing

/-! ### Steps and runs -/

theorem ArgStack.push_eq_error {s : ArgStack} {x : Float32} {fault : FontFault}
    (h : s.push x = .error fault) : fault = .tooManyOperands := by
  unfold push at h
  split at h
  · cases h
  · cases h
    rfl

theorem ArgStack.pushAll_eq_error {s : ArgStack} {xs : List Float32} {fault : FontFault}
    (h : s.pushAll xs = .error fault) : fault = .tooManyOperands := by
  induction xs generalizing s with
  | nil => cases h
  | cons x xs ih =>
    rw [pushAll] at h
    cases hpush : s.push x with
    | error fault' =>
      rw [hpush] at h
      cases h
      exact push_eq_error hpush
    | ok t =>
      rw [hpush] at h
      exact ih h

/-- Why a step of an instruction can go wrong. -/
inductive Blame (i : Instruction) : FontFault → Prop where
  /-- The operator cannot draw with so many operands. -/
  | operands : Blame i .wrongOperandCount
  /-- There is no room on the stack. -/
  | full : Blame i .tooManyOperands
  /-- The instruction calls a subroutine. -/
  | called {scope : SubrScope} (call : i.op = .call scope) : Blame i .callNotInlined

namespace Frame

theorem blame_sketchPushed {f : Frame} {i : Instruction} {pushes : Except FontFault ArgStack}
    {fault : FontFault} (only : ∀ fault, pushes = .error fault → fault = .tooManyOperands)
    (h : (f.sketchPushed pushes).ending.fault? = some fault) : Blame i fault := by
  cases pushes with
  | ok stack => cases h
  | error fault' =>
    cases h
    cases only fault rfl
    exact .full

theorem blame_sketchDrawn {f : Frame} {i : Instruction} {drawing : Drawing} {fault : FontFault}
    (counts : drawing.Counts) (h : (f.sketchDrawn drawing).ending.fault? = some fault) :
    Blame i fault := by
  unfold sketchDrawn at h
  split at h
  · cases h
  · rename_i fault' houtcome
    cases h
    cases counts fault houtcome
    exact .operands

theorem blame_sketchOperation {f : Frame} {i : Instruction} {fault : FontFault}
    (h : (f.sketchOperation i).ending.fault? = some fault) : Blame i fault := by
  obtain ⟨op, taken, value⟩ := i
  cases op with
  | load form =>
    cases form with
    | int | fixed => exact blame_sketchPushed (fun _ => ArgStack.push_eq_error) h
    | _ => exact blame_sketchPushed (fun _ => ArgStack.pushAll_eq_error) h
  | move kind => exact blame_sketchDrawn (Drawing.counts_ofMove kind _ _) h
  | draw kind => exact blame_sketchDrawn (Drawing.counts_ofDraw kind _ _) h
  | call scope =>
    cases h
    exact .called rfl
  | _ => cases h

theorem blame_sketch {f : Frame} {i : Instruction} {fault : FontFault}
    (h : (f.sketch i).ending.fault? = some fault) : Blame i fault := by
  unfold sketch at h
  split at h
  · exact blame_sketchOperation h
  · rename_i fault' full
    cases h
    cases ArgStack.pushAll_eq_error full
    exact .full

/-- **A run goes wrong** at one of its instructions, for one of the reasons. -/
theorem blame_sketchAll {f : Frame} {list : List Instruction} {fault : FontFault}
    (h : (f.sketchAll list).ending.fault? = some fault) : ∃ i ∈ list, Blame i fault := by
  induction list generalizing f with
  | nil => cases h
  | cons i list ih =>
    cases hs : (f.sketch i).ending with
    | next g =>
      obtain ⟨j, hj, blame⟩ := ih (f := g) (by simpa [sketchAll, Sketch.andThen, hs] using h)
      exact ⟨j, List.mem_cons_of_mem i hj, blame⟩
    | halt g closes => simp [sketchAll, Sketch.andThen, hs, Ending.fault?] at h
    | fail fault' =>
      have here : (f.sketch i).ending.fault? = some fault := by
        simpa [sketchAll, Sketch.andThen, hs] using h
      exact ⟨i, List.mem_cons_self, blame_sketch here⟩

end Frame

/-- The fault of an evaluation is that of the run. -/
theorem Sketch.fault_evaluation (s : Sketch) (scale : Float32) :
    (s.evaluation scale).fault = s.ending.fault? := by
  cases h : s.ending.fault? with
  | none => rw [evaluation_of_none h]
  | some fault => rw [evaluation_of_some h]

/-- An evaluation that goes wrong does so at one of the instructions. -/
theorem Evaluator.blame_evaluate {e : Evaluator} {scale : Float32} {list : List Instruction}
    {fault : FontFault} (h : (e.evaluate scale list).1.fault = some fault) :
    ∃ i ∈ list, Blame i fault := by
  change (e.takeOut.1.evaluate scale list).1.fault = some fault at h
  rw [Frame.fst_evaluate_eq, Sketch.fault_evaluation] at h
  exact Frame.blame_sketchAll h

/-! ### Decoded lists -/

/-- **Decoding makes well formed lists**, and no evaluation of such a list, or of what it is compacted to,
comes upon a call of a subroutine. -/
theorem wellFormed_of_decode {sets : SubroutineSets} {charstring : List UInt8}
    {list : List Instruction} (h : decode sets charstring = .ok list) :
    WellFormed list ∧ ∀ (e : Evaluator) (scale : Float32) (c : Compactor),
      (e.evaluate scale list).1.fault ≠ some .callNotInlined ∧
      (e.evaluate scale (c.compact list).1).1.fault ≠ some .callNotInlined := by
  have wellFormed := WellFormed.of_decode h
  refine ⟨wellFormed, fun e scale c => ?_⟩
  have noCall : (e.evaluate scale list).1.fault ≠ some .callNotInlined := by
    intro fault
    obtain ⟨i, hi, blame⟩ := e.blame_evaluate fault
    cases blame with
    | called call => exact wellFormed.noCall i hi _ call
  exact ⟨noCall, e.evaluate_congr (c.outcome_fst_compact list) scale ▸ noCall⟩

/-- A width, two times 17 stem hints, a mask over them in loads that have more than 16 bits, and a move. -/
theorem wellFormed_of_decode_longMask :
    let charstring : List UInt8 := 149 :: List.replicate 34 140 ++ [18] ++ List.replicate 34 140 ++
      [23, 19, 255, 0, 0, 1, 128, 141, 142, 21, 14]
    let list : List Instruction := .withValue .width 10 :: List.replicate 34 (.int 1) ++
      [.plain (.stem .hstemhm)] ++ List.replicate 34 (.int 1) ++
      [.plain (.stem .vstemhm), .plain (.stem .vstem), .int (-16777215), .int (-2147483648),
        .withValue (.mask .hint .many) 5, .int 2, .int 3, .plain (.move .rmoveto), .plain .endchar]
    decode ⟨⟨.empty⟩, none⟩ charstring = .ok list ∧ list[72]? = some (.int (-16777215)) ∧
      WellFormed list ∧ ∀ (e : Evaluator) (scale : Float32) (c : Compactor),
        (e.evaluate scale list).1.fault ≠ some .callNotInlined ∧
        (e.evaluate scale (c.compact list).1).1.fault ≠ some .callNotInlined := by
  intro charstring list
  have decoded : decode ⟨⟨.empty⟩, none⟩ charstring = .ok list := by cbv
  exact ⟨decoded, rfl, wellFormed_of_decode decoded⟩

end CompactFont
