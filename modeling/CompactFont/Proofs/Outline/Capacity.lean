import CompactFont.Proofs.Charstring.Decoded
import CompactFont.Proofs.Charstring.Limits
import CompactFont.Proofs.Outline.Faults
import CompactFont.Proofs.Outline.Reuse

/-!
# Room on the stack

A run of instructions that push at most one operand each has no more operands on its stack than the
instructions say, whatever is drawn. So if there is room for these, the run does not fail for want of
room (`Frame.within_sketchAll`). What is decoded is made of such instructions, and there is room within
the limits that charstrings keep to, except before a crowded mask (`room_of_decode`).
-/

namespace CompactFont

open Charstring

/-- Where there is a next instruction, at most so many operands are on the stack; and if there was a
fault, it was not for want of room. -/
def Ending.Within (n : Nat) : Ending → Prop
  | .next f => f.stack.depth ≤ n
  | .halt _ _ => True
  | .fail fault => fault ≠ .tooManyOperands

theorem Ending.Within.fault?_ne {n : Nat} {e : Ending} (h : e.Within n) :
    e.fault? ≠ some .tooManyOperands := by
  cases e with
  | next f => nofun
  | halt f closes => nofun
  | fail fault => exact fun same => h (Option.some.inj same)

namespace Sketch

theorem andThen_next (s : Sketch) : (s.andThen fun f => ⟨[], .next f⟩) = s := by
  obtain ⟨segments, ending⟩ := s
  cases ending with
  | next f => exact congrArg (Sketch.mk · (.next f)) (List.append_nil segments)
  | _ => rfl

theorem andThen_assoc (s : Sketch) (next next' : Frame → Sketch) :
    (s.andThen next).andThen next' = s.andThen fun f => (next f).andThen next' := by
  obtain ⟨segments, ending⟩ := s
  cases ending with
  | next f =>
    simp only [andThen]
    generalize next f = s
    obtain ⟨more, ending⟩ := s
    cases ending with
    | next g => simp only [List.append_assoc]
    | _ => rfl
  | _ => rfl

end Sketch

namespace Frame

/-! ### Steps -/

variable {f : Frame} {n : Nat}

/-- There is room for one more operand. -/
theorem within_push (depth : f.stack.depth ≤ n) (room : n < ArgStack.capacity) (x : Float32) :
    (f.sketchPushed (f.stack.push x)).ending.Within (n + 1) := by
  rw [ArgStack.push, dif_pos (Nat.lt_of_le_of_lt depth room)]
  exact Nat.succ_le_succ depth

/-- Drawing gives up all operands. -/
theorem within_sketchDrawn (f : Frame) {drawing : Drawing} (counts : drawing.Counts) :
    (f.sketchDrawn drawing).ending.Within 0 := by
  unfold sketchDrawn
  split
  · exact Nat.le_refl 0
  · rename_i fault outcome
    rw [counts fault outcome]
    nofun

/-- A step has no more operands on the stack than its instruction says, if there is room for these. -/
theorem within_sketch {i : Instruction} {made : List Instruction} (unpacked : i.Unpacked)
    (depth : f.stack.depth ≤ depthAfter made) (room : depthAfter (i :: made) ≤ ArgStack.capacity) :
    (f.sketch i).ending.Within (depthAfter (i :: made)) := by
  obtain ⟨op, taken, value⟩ := i
  obtain ⟨rfl, notShorts, notFour, notThree⟩ := unpacked
  have operation : f.sketch ⟨op, .nothing, value⟩ = f.sketchOperation ⟨op, .nothing, value⟩ := rfl
  rw [operation]
  cases op with
  | load form =>
    cases form with
    | int => exact within_push depth room _
    | fixed => exact within_push depth room _
    | shorts => exact absurd rfl notShorts
    | fourBytes => exact absurd rfl notFour
    | threeBytes => exact absurd rfl notThree
  | width => exact depth
  | arithmetic kind => exact depth
  | stem kind => exact Nat.zero_le _
  | mask kind form => exact Nat.zero_le _
  | move kind => exact f.within_sketchDrawn (Drawing.counts_ofMove kind _ _)
  | draw kind => exact f.within_sketchDrawn (Drawing.counts_ofDraw kind _ _)
  | endchar => trivial
  | ret => trivial
  | call scope => nofun

/-! ### Runs -/

theorem sketchAll_append (f : Frame) (list list' : List Instruction) :
    f.sketchAll (list ++ list') = (f.sketchAll list).andThen (·.sketchAll list') := by
  induction list generalizing f with
  | nil => rfl
  | cons i list ih =>
    rw [List.cons_append, sketchAll, sketchAll, Sketch.andThen_assoc]
    exact congrArg (f.sketch i).andThen (funext ih)

theorem sketchAll_singleton (f : Frame) (i : Instruction) : f.sketchAll [i] = f.sketch i :=
  (f.sketch i).andThen_next

/-- **A run has no more operands on the stack** than its instructions say, and does not fail for want of
room if there is room for these. -/
theorem within_sketchAll {made : List Instruction} (empty : f.stack.depth = 0)
    (unpacked : ∀ i ∈ made, i.Unpacked) (fits : Fits made)
    (room : depthAfter made ≤ ArgStack.capacity) :
    (f.sketchAll made.reverse).ending.Within (depthAfter made) := by
  induction made with
  | nil => exact Nat.le_of_eq empty
  | cons i made ih =>
    obtain ⟨here, before⟩ := List.forall_mem_cons.mp unpacked
    have within := ih before fits.2 (fits.room_before room)
    rw [List.reverse_cons, sketchAll_append]
    generalize f.sketchAll made.reverse = s at within ⊢
    obtain ⟨segments, ending⟩ := s
    cases ending with
    | next g =>
      have step := within_sketch here within room
      rw [← sketchAll_singleton] at step
      exact step
    | halt g closes => trivial
    | fail fault => exact within

end Frame

/-! ### A mask that comes when many operands wait -/

/-- So many zeros are pushed, one after the other, before the rest is executed. -/
def Charstring.Execution.afterZeros (x : Execution) : Nat → Execution
  | 0 => x
  | n + 1 => .token (.operand (.int 0)) [139] (x.afterZeros n)

theorem Charstring.Executes.afterZeros {sets : SubroutineSets} {calls n : Nat} {bytes : List UInt8}
    {p q : Progress} {x : Execution} {e : Charstring.Ending}
    (h : Executes sets calls bytes ((List.replicate n (.int 0)).foldl Progress.operand p) x e q) :
    Executes sets calls (List.replicate n 139 ++ bytes) p (x.afterZeros n) e q := by
  induction n generalizing p with
  | zero => exact h
  | succ n ih => exact .go rfl rfl rfl rfl (ih h)

/-- The byte of a mask operator. -/
def Charstring.MaskKind.operator : MaskKind → UInt8
  | .hint => 19
  | .counter => 20

/-- 41 stem hints, 48 operands for 24 more, a mask over all of them, and the end. -/
def waitingCharstring (kind : MaskKind) : List UInt8 :=
  List.replicate 48 139 ++ 18 :: (List.replicate 34 139 ++ 18 :: (List.replicate 48 139 ++
    kind.operator :: (List.replicate 9 255 ++ [14])))

/-- What is executed of it. -/
def waitingExecution (kind : MaskKind) : Execution :=
  .afterZeros (.token (.stem .hstemhm) [18] (.afterZeros (.token (.stem .hstemhm) [18] (.afterZeros
    (.token (.mask kind) (kind.operator :: List.replicate 9 255) (.token .endchar [14] .stop))
      48)) 34)) 48

theorem executes_waitingCharstring (kind : MaskKind) :
    ∃ e p, Executes ⟨⟨.empty⟩, none⟩ nestingLimit (waitingCharstring kind) {} (waitingExecution kind)
        e p ∧ (waitingExecution kind).Legal ∧ p.stems = 65 := by
  cases kind
  all_goals
    exact ⟨_, _, .afterZeros (.go rfl rfl rfl rfl (.afterZeros (.go rfl rfl rfl rfl (.afterZeros
      (.go rfl rfl rfl rfl (.stop rfl rfl rfl rfl)))))), by decide +kernel, rfl⟩

/-! ### Decoded lists -/

/-- **Within limits, no evaluation fails for want of room.** Let no operator that clears the stack come
upon more than 48 operands, let at most 96 stem hints be declared, and let no mask be crowded. Then
there is room for all operands and for the bytes of all masks, whether the decoded list is evaluated or
what it is compacted to. -/
theorem room_of_decode {sets : SubroutineSets} {charstring : List UInt8} {list : List Instruction}
    (h : decode sets charstring = .ok list) :
    (∃ x e p, Executes sets nestingLimit charstring {} x e p) ∧
      ∀ x e p, Executes sets nestingLimit charstring {} x e p → x.Legal → p.stems ≤ stemLimit →
        x.Uncrowded → ∀ (evaluator : Evaluator) (scale : Float32) (c : Compactor), evaluator.Rested →
          (evaluator.evaluate scale list).1.fault ≠ some .tooManyOperands ∧
          (evaluator.evaluate scale (c.compact list).1).1.fault ≠ some .tooManyOperands := by
  obtain ⟨e, p, q, hd, -, -⟩ := decode_eq_ok h
  rw [← decodeNested_eq] at hd
  obtain ⟨x, hx⟩ := executes_of_decodeNested hd
  refine ⟨⟨x, e, p, hx⟩, fun x e p hx legal stems uncrowded evaluator scale c rested => ?_⟩
  have room : (evaluator.evaluate scale list).1.fault ≠ some .tooManyOperands := by
    obtain ⟨fits, depth⟩ := fits_of_decode h hx legal stems uncrowded
    have unpacked : ∀ i ∈ list.reverse, i.Unpacked :=
      fun i hi => (decoded_of_decode h i (List.mem_reverse.mp hi)).unpacked
    have within := Frame.within_sketchAll (f := .new) rfl unpacked fits depth
    rw [List.reverse_reverse] at within
    have fault : (evaluator.evaluate scale list).1.fault =
        (Frame.new.sketchAll list).ending.fault? := by
      rw [rested.evaluate_eq, ← Sketch.fault_evaluation _ scale, ← Frame.fst_evaluate_eq]
      rfl
    rw [fault]
    exact within.fault?_ne
  exact ⟨room, evaluator.evaluate_congr (c.outcome_fst_compact list) scale ▸ room⟩

set_option maxRecDepth 4000 in
/-- A hint mask over 65 stem hints, when 48 operands wait: the vertical stems that are put in take
them. -/
theorem room_of_decode_hintMask :
    let list : List Instruction := List.replicate 48 (.int 0) ++ .plain (.stem .hstemhm) ::
      (List.replicate 34 (.int 0) ++ .plain (.stem .hstemhm) :: (List.replicate 48 (.int 0) ++
        [.plain (.stem .vstem), .int (-1), .int (-1), .int (-16777216),
          .withValue (.mask .hint .many) 9, .plain .endchar]))
    decode ⟨⟨.empty⟩, none⟩ (waitingCharstring .hint) = .ok list ∧
      ∃ x e p, Executes ⟨⟨.empty⟩, none⟩ nestingLimit (waitingCharstring .hint) {} x e p ∧
        x.Legal ∧ p.stems ≤ stemLimit ∧ x.Uncrowded ∧
        ∀ (scale : Float32) (c : Compactor),
          (Evaluator.new.evaluate scale list).1.fault ≠ some .tooManyOperands ∧
          (Evaluator.new.evaluate scale (c.compact list).1).1.fault ≠ some .tooManyOperands := by
  intro list
  have decoded : decode ⟨⟨.empty⟩, none⟩ (waitingCharstring .hint) = .ok list := by cbv
  obtain ⟨e, p, executes, legal, stems⟩ := executes_waitingCharstring .hint
  have few : p.stems ≤ stemLimit := stems ▸ by decide
  have uncrowded : (waitingExecution .hint).Uncrowded := by decide +kernel
  exact ⟨decoded, _, e, p, executes, legal, few, uncrowded, fun scale c =>
    (room_of_decode decoded).2 _ e p executes legal few uncrowded .new scale c
      Evaluator.rested_new⟩

set_option maxRecDepth 4000 in
/-- Nothing takes them before a counter mask, and its nine bytes are three operands more: with 51 the
stack runs full, within all limits. -/
theorem fault_counterMask :
    let list : List Instruction := List.replicate 48 (.int 0) ++ .plain (.stem .hstemhm) ::
      (List.replicate 34 (.int 0) ++ .plain (.stem .hstemhm) :: (List.replicate 48 (.int 0) ++
        [.int (-1), .int (-1), .int (-16777216), .withValue (.mask .counter .many) 9,
          .plain .endchar]))
    decode ⟨⟨.empty⟩, none⟩ (waitingCharstring .counter) = .ok list ∧
      (∃ x e p, Executes ⟨⟨.empty⟩, none⟩ nestingLimit (waitingCharstring .counter) {} x e p ∧
        x.Legal ∧ p.stems ≤ stemLimit) ∧
      (evaluate 1 list).fault = some .tooManyOperands ∧
      (evaluate 1 (compact list)).fault = some .tooManyOperands := by
  intro list
  have decoded : decode ⟨⟨.empty⟩, none⟩ (waitingCharstring .counter) = .ok list := by cbv
  obtain ⟨e, p, executes, legal, stems⟩ := executes_waitingCharstring .counter
  have few : p.stems ≤ stemLimit := stems ▸ by decide
  have full : (evaluate 1 list).fault = some .tooManyOperands := rfl
  refine ⟨decoded, ⟨_, e, p, executes, legal, few⟩, full, ?_⟩
  have same := Evaluator.new.evaluate_congr (Compactor.new.outcome_fst_compact list) 1
  exact (congrArg Evaluation.fault same).trans full

end CompactFont
