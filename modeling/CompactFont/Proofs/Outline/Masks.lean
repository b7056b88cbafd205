import CompactFont.Proofs.Charstring.Courses
import CompactFont.Proofs.Outline.Reuse

/-!
# Outlines do not tell masks

The bytes of a mask draw nothing. Those of a long one are pushed like operands, but nothing comes between
the loads that push them and the mask, which gives up all operands. So other bytes make no difference to
what is drawn, and none to whether there is room for them on the stack: both runs go on with the same pen
and no operand, or both fail at the same load (`alike_sketchAll_mask`).

So a charstring with other bytes in its masks has the same outline, to every scale
(`related_decode_of_masks`).
-/

namespace CompactFont

open Charstring

/-! ### As many operands -/

/-- Two frames have the same pen, and as many operands wait in both. -/
structure Frame.Level (f g : Frame) : Prop where
  /-- The pens are at one point. -/
  pen : f.pen = g.pen
  /-- As many operands wait. -/
  depth : f.stack.depth = g.stack.depth

theorem Frame.Alike.level {f g : Frame} (h : f.Alike g) : f.Level g where
  pen := h.pen
  depth := by rw [← ArgStack.length_toList, h.operands, ArgStack.length_toList]

/-- Whether there is room for an operand does not depend on which operands there are. -/
theorem ArgStack.related_push {s t : ArgStack} (h : s.depth = t.depth) (x y : Float32) :
    Related (fun s t => s.depth = t.depth) (s.push x) (t.push y) := by
  by_cases room : s.depth < capacity
  · rw [push, push, dif_pos room, dif_pos (h ▸ room)]
    exact .ok (congrArg (· + 1) h)
  · rw [push, push, dif_neg room, dif_neg (h ▸ room)]
    exact .error _

/-! ### Runs over masks -/

namespace Frame

/-- The load of an integer pushes it. -/
theorem sketchAll_int (f : Frame) (n : Int32) (list : List Instruction) :
    f.sketchAll (.int n :: list) =
      (f.sketchPushed (f.stack.push (operandOfInt32 n))).andThen (·.sketchAll list) := rfl

/-- A mask gives up all operands, and so do the loads before it together with it. -/
theorem alike_sketchAll_mask {f g : Frame} (level : f.Level g) {values values' : List Int32}
    (same : values.length = values'.length) (kind : MaskKind) (form : MaskForm) (n n' : Int32)
    {list list' : List Instruction}
    (onward : ∀ f g : Frame, f.Alike g → (f.sketchAll list).Alike (g.sketchAll list')) :
    (f.sketchAll (values.map .int ++ .withValue (.mask kind form) n :: list)).Alike
      (g.sketchAll (values'.map .int ++ .withValue (.mask kind form) n' :: list')) := by
  induction values generalizing values' f g with
  | nil =>
    obtain rfl : values' = [] := List.length_eq_zero_iff.mp same.symm
    have cleared : Frame.Alike { f with stack := f.stack.clear } { g with stack := g.stack.clear } :=
      ⟨level.pen, rfl⟩
    exact onward _ _ cleared
  | cons v values ih =>
    obtain ⟨v', values', rfl⟩ := List.exists_cons_of_length_eq_add_one same.symm
    simp only [List.map_cons, List.cons_append, sketchAll_int]
    have pushed := ArgStack.related_push level.depth (operandOfInt32 v) (operandOfInt32 v')
    generalize f.stack.push (operandOfInt32 v) = s, g.stack.push (operandOfInt32 v') = t at pushed
    cases pushed with
    | error fault => exact ⟨rfl, .fail⟩
    | @ok s t depth =>
      have raised : Frame.Level { f with stack := s } { g with stack := t } := ⟨level.pen, depth⟩
      exact ih raised (Nat.succ.inj same)

end Frame

/-- Lists that are remasked lead to the same sketch, and on to what comes after them. -/
theorem Charstring.Remasked.alike_sketchAll {list list' : List Instruction} (h : Remasked list list')
    (last : List Instruction) {f g : Frame} (alike : f.Alike g) :
    (f.sketchAll (list ++ last)).Alike (g.sketchAll (list' ++ last)) := by
  induction h generalizing f g with
  | nil => exact alike.sketchAll last
  | same ordinary _ ih => exact (alike.sketch _).andThen fun f g alike => ih alike
  | inValue value value' few _ ih =>
    exact @Frame.alike_sketchAll_mask f g alike.level [] [] rfl _ _ value value' _ _
      fun f g alike => ih alike
  | inLoads many count count' _ ih =>
    rw [List.append_assoc, List.append_assoc]
    exact Frame.alike_sketchAll_mask alike.level (count.trans count'.symm) _ _ _ _
      fun f g alike => ih alike

namespace Charstring.RemaskedTo

variable {list list' : List Instruction}

theorem differInMasks (h : RemaskedTo list list') : DifferInMasks list list' := by
  cases h with
  | ending remasked endings => exact remasked.differInMasks.append (.refl _)

/-- Evaluations cannot tell them apart. -/
theorem evaluate_eq (h : RemaskedTo list list') (e : Evaluator) (scale : Float32) :
    (e.evaluate scale list).1 = (e.evaluate scale list').1 := by
  cases h with
  | ending remasked endings =>
    change (e.takeOut.1.evaluate scale _).1 = (e.takeOut.1.evaluate scale _).1
    rw [Frame.fst_evaluate_eq, Frame.fst_evaluate_eq]
    exact (remasked.alike_sketchAll _ ⟨rfl, rfl⟩).evaluation_eq scale

end Charstring.RemaskedTo

/-- **The bytes of masks do not show in the outline.** Of two inputs of one shape, let those bytes differ
that decoding the first one takes for masks and for nothing else, or not at all. Then both are decoded to
the same fault, or to lists that differ at most in the values of masks and of the loads that hold their
bytes; and to every scale both lists are evaluated to the same calls and the same result. -/
theorem related_decode_of_masks {input input' : Input} (shape : input.SameShape input')
    (masks : ∀ c ∈ input.consumed, input.byte? c.place ≠ input'.byte? c.place → c.use = .mask) :
    Related (fun list list' => DifferInMasks list list' ∧
        ∀ (e : Evaluator) (scale : Float32),
          (e.evaluate scale list).1 = (e.evaluate scale list').1)
      input.decode input'.decode := by
  have agree : Agree input input' input.consumed := by
    intro c hc token
    by_cases same : input.byte? c.place = input'.byte? c.place
    · exact same
    · rw [masks c hc same] at token
      cases token
  exact (related_decode shape agree).mono fun list list' remasked =>
    ⟨remasked.differInMasks, remasked.evaluate_eq⟩

set_option maxRecDepth 2000 in
/-- A mask of five bytes over two times 17 stem hints, then a move. Anywhere else the other bytes would be
operators and operands. -/
theorem related_decode_of_masks_longMask :
    let input (mask : List UInt8) : Input :=
      ⟨List.replicate 34 140 ++ [18] ++ List.replicate 34 140 ++ [23, 19] ++ mask ++
        [141, 142, 21, 14], ⟨⟨.empty⟩, none⟩⟩
    let list (a b : Int32) : List Instruction := List.replicate 34 (.int 1) ++
      [.plain (.stem .hstemhm)] ++ List.replicate 34 (.int 1) ++
      [.plain (.stem .vstemhm), .plain (.stem .vstem), .int a, .int b,
        .withValue (.mask .hint .many) 5, .int 2, .int 3, .plain (.move .rmoveto), .plain .endchar]
    (input [1, 2, 3, 4, 64]).decode = .ok (list 16909060 1073741824) ∧
      (input [29, 14, 200, 14, 255]).decode = .ok (list 487507982 (-16777216)) ∧
      DifferInMasks (list 16909060 1073741824) (list 487507982 (-16777216)) ∧
      ∀ (e : Evaluator) (scale : Float32), (e.evaluate scale (list 16909060 1073741824)).1 =
        (e.evaluate scale (list 487507982 (-16777216))).1 := by
  intro input list
  have decoded : (input [1, 2, 3, 4, 64]).decode = .ok (list 16909060 1073741824) := by cbv
  have decoded' : (input [29, 14, 200, 14, 255]).decode = .ok (list 487507982 (-16777216)) := by cbv
  have consumed : (input [1, 2, 3, 4, 64]).consumed =
      spent .token none 80 80 9 ++ spent .mask none 80 9 4 ++ spent .token none 80 4 0 := by cbv
  have masks : ∀ c ∈ (input [1, 2, 3, 4, 64]).consumed,
      (input [1, 2, 3, 4, 64]).byte? c.place ≠ (input [29, 14, 200, 14, 255]).byte? c.place →
        c.use = .mask := by
    rw [consumed]
    decide
  have shape : (input [1, 2, 3, 4, 64]).SameShape (input [29, 14, 200, 14, 255]) :=
    ⟨rfl, ⟨rfl, rfl⟩, .none⟩
  have related := related_decode_of_masks shape masks
  rw [decoded, decoded'] at related
  cases related with
  | ok related => exact ⟨decoded, decoded', related⟩

end CompactFont
