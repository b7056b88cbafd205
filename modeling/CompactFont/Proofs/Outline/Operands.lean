import CompactFont.Proofs.Outline.Tangents

/-!
# How many operands an operator takes

An operator of paths takes all the operands there are, and their number alone decides whether it accepts
them (`PathOperator.Accepts`) and which segments it then makes (`PathOperator.segments`): no coordinate
counts, and neither does where the pen is. The numbers of a chain are those of its groups; only curves with
tangents along both axes in turn find out on the way whether the last group is complete, which is known
beforehand all the same (`Drawing.kinds?_alternatingCurves`).

Performing an operator makes these calls, and leaves no operand waiting, or else fails
(`Frame.operate_path`). The contour that is open is closed by the operators that move, and by no other.
-/

namespace CompactFont

open Charstring (Draw Instruction Move Op Taken)

/-- What a call is for, without any points. -/
inductive CallKind where
  /-- Contours begin. -/
  | beginContours
  /-- A move. -/
  | move
  /-- A line. -/
  | line
  /-- A curve. -/
  | curve
  /-- A contour is closed. -/
  | close
  /-- Contours end. -/
  | endContours
  deriving DecidableEq

/-- What the call for a segment is for. -/
def Segment.kind : Segment → CallKind
  | .move _ => .move
  | .line _ => .line
  | .curve _ _ _ => .curve

/-- What a call is for. -/
def Call.kind : Call → CallKind
  | .beginContours _ => .beginContours
  | .segment s => s.kind
  | .close => .close
  | .endContours => .endContours

/-- An operator of paths. -/
inductive PathOperator where
  /-- It moves. -/
  | move (kind : Move)
  /-- It draws lines and curves. -/
  | draw (kind : Draw)

namespace PathOperator

/-- The operation of the operator. -/
def op : PathOperator → Op
  | .move kind => .move kind
  | .draw kind => .draw kind

/-- What the operator draws. -/
def drawing : PathOperator → (pen : Point) → (args : List Float32) → Drawing
  | .move kind => .ofMove kind
  | .draw kind => .ofDraw kind

/-- The operator accepts operands that are `n` in number. -/
def Accepts (n : Nat) : PathOperator → Prop
  | .move .rmoveto => n = 2
  | .move .hmoveto | .move .vmoveto => n = 1
  | .draw .rlineto => n % 2 = 0
  | .draw .hlineto | .draw .vlineto => 1 ≤ n
  | .draw .rrcurveto => n % 6 = 0
  | .draw .rcurveline => 8 ≤ n ∧ n % 6 = 2
  | .draw .rlinecurve => 8 ≤ n ∧ n % 2 = 0
  | .draw .hhcurveto | .draw .vvcurveto => n % 4 = 0 ∨ n % 4 = 1
  | .draw .hvcurveto | .draw .vhcurveto => 4 ≤ n ∧ (n % 4 = 0 ∨ n % 4 = 1)
  | .draw .flex => n = 13
  | .draw .flex1 => n = 11
  | .draw .hflex => n = 7
  | .draw .hflex1 => n = 9

/-- The segments that the operator makes of `n` operands that it accepts. -/
def segments (n : Nat) : PathOperator → List CallKind
  | .move _ => [.move]
  | .draw .rlineto => .replicate (n / 2) .line
  | .draw .hlineto | .draw .vlineto => .replicate n .line
  | .draw .rrcurveto => .replicate (n / 6) .curve
  | .draw .rcurveline => .replicate ((n - 2) / 6) .curve ++ [.line]
  | .draw .rlinecurve => .replicate ((n - 6) / 2) .line ++ [.curve]
  | .draw .hhcurveto | .draw .vvcurveto | .draw .hvcurveto | .draw .vhcurveto =>
    .replicate (n / 4) .curve
  | .draw .flex | .draw .flex1 | .draw .hflex | .draw .hflex1 => [.curve, .curve]

/-- The calls that the operator makes with `n` operands that it accepts. -/
def calls (contourOpen : Bool) (n : Nat) : PathOperator → List CallKind
  | .move kind =>
    if contourOpen then .close :: segments n (.move kind) else segments n (.move kind)
  | .draw kind => segments n (.draw kind)

instance (n : Nat) : (kind : PathOperator) → Decidable (kind.Accepts n)
  | .move .rmoveto | .move .hmoveto | .move .vmoveto | .draw .rlineto | .draw .rrcurveto
  | .draw .flex | .draw .flex1 | .draw .hflex | .draw .hflex1 => inferInstanceAs (Decidable (_ = _))
  | .draw .hlineto | .draw .vlineto => inferInstanceAs (Decidable (_ ≤ _))
  | .draw .rcurveline | .draw .rlinecurve | .draw .hvcurveto | .draw .vhcurveto =>
    inferInstanceAs (Decidable (_ ∧ _))
  | .draw .hhcurveto | .draw .vvcurveto => inferInstanceAs (Decidable (_ ∨ _))

end PathOperator

/-! ### What is drawn -/

namespace Drawing

/-- What the segments of a drawing are for, if it does not go wrong. -/
def kinds? (d : Drawing) : Option (List CallKind) :=
  match d.outcome with
  | .ok _ => some (d.segments.map Segment.kind)
  | .error _ => none

@[simp] theorem kinds?_rest (pen : Point) : (rest pen).kinds? = some [] := rfl

@[simp] theorem kinds?_refuse : refuse.kinds? = none := rfl

@[simp] theorem kinds?_after (d : Drawing) (s : Segment) :
    (d.after s).kinds? = d.kinds?.map (s.kind :: ·) := by
  obtain ⟨segments, outcome⟩ := d
  cases outcome <;> rfl

theorem kinds?_andThen {d : Drawing} {next : Point → Drawing} {front back : List CallKind}
    (h : d.kinds? = some front) (hnext : ∀ pen, (next pen).kinds? = some back) :
    (d.andThen next).kinds? = some (front ++ back) := by
  obtain ⟨segments, outcome⟩ := d
  cases outcome with
  | error fault => cases h
  | ok stop =>
    cases h
    have later := hnext stop
    simp only [andThen]
    cases hstop : next stop with
    | mk others outcome =>
      rw [hstop] at later
      cases outcome with
      | error fault => cases later
      | ok stop =>
        cases later
        simp only [kinds?, List.map_append]

/-- An operator that refuses its operands unless a condition holds. -/
theorem kinds?_guarded {c accepted : Prop} [Decidable c] [Decidable accepted] {d : Drawing}
    {kinds : List CallKind} (same : c ↔ accepted) (h : c → d.kinds? = some kinds) :
    (if c then d else refuse).kinds? = if accepted then some kinds else none := by
  by_cases hc : c
  · rw [if_pos hc, if_pos (same.mp hc), h hc]
  · rw [if_neg hc, if_neg fun accepted => hc (same.mpr accepted), kinds?_refuse]

/-! ### Chains of segments -/

theorem kinds?_lines (pen : Point) (args : List Float32) :
    (lines pen args).kinds? = some (.replicate (args.length / 2) .line) := by
  fun_induction lines pen args with
  | case1 pen a b args s ih =>
    have group : (a :: b :: args).length / 2 = args.length / 2 + 1 := by
      simp only [List.length_cons]
      omega
    rw [kinds?_after, ih, group]
    rfl
  | case2 args pen few =>
    rcases args with _ | ⟨a, _ | ⟨b, args⟩⟩
    · simp
    · simp
    · exact absurd rfl (few a b args)

theorem kinds?_alternatingLines (horizontal : Bool) (pen : Point) (args : List Float32) :
    (alternatingLines horizontal pen args).kinds? = some (.replicate args.length .line) := by
  fun_induction alternatingLines horizontal pen args with
  | case1 horizontal pen a args s ih =>
    rw [kinds?_after, ih]
    rfl
  | case2 => rfl

theorem kinds?_curves (pen : Point) (args : List Float32) :
    (curves pen args).kinds? = some (.replicate (args.length / 6) .curve) := by
  fun_induction curves pen args with
  | case1 pen a b c d e f args s ih =>
    have group : (a :: b :: c :: d :: e :: f :: args).length / 6 = args.length / 6 + 1 := by
      simp only [List.length_cons]
      omega
    rw [kinds?_after, ih, group]
    rfl
  | case2 args pen few =>
    rcases args with _ | ⟨a, _ | ⟨b, _ | ⟨c, _ | ⟨d, _ | ⟨e, _ | ⟨f, args⟩⟩⟩⟩⟩⟩
    case cons.cons.cons.cons.cons.cons => exact absurd rfl (few a b c d e f args)
    all_goals simp

theorem length_group (a b c d : Float32) (args : List Float32) :
    (a :: b :: c :: d :: args).length / 4 = args.length / 4 + 1 := by
  simp only [List.length_cons]
  omega

/-- Curves along one axis are as many as groups of four operands; it does not matter how a curve is made of
its group. -/
theorem kinds?_curvesAlong {one : Point → Float32 → Float32 → Float32 → Float32 → Segment}
    (curve : ∀ pen a b c d, (one pen a b c d).kind = .curve) (pen : Point) (args : List Float32) :
    (curvesAlong one pen args).kinds? = some (.replicate (args.length / 4) .curve) := by
  fun_induction curvesAlong one pen args with
  | case1 pen a b c d args s ih =>
    rw [kinds?_after, ih, length_group]
    exact congrArg (fun kind => some (kind :: _)) (curve pen a b c d)
  | case2 args pen few =>
    rw [Nat.div_eq_of_lt (length_lt_four few)]
    rfl

/-- Curves along both axes in turn are as many as groups of four operands, if at most one operand is left
over, which the last group takes. -/
theorem kinds?_alternatingCurves (horizontal : Bool) (pen : Point) (args : List Float32) :
    (alternatingCurves horizontal pen args).kinds? =
      if args.length % 4 ≤ 1 ∧ args.length ≠ 1 then some (.replicate (args.length / 4) .curve)
      else none := by
  have curve (horizontal : Bool) (pen : Point) (a b c d e : Float32) :
      (alternatingCurves.turn horizontal pen a b c d e).kind = .curve := by
    cases horizontal <;> rfl
  fun_induction alternatingCurves horizontal pen args with
  | case1 => rfl
  | case2 horizontal pen a b c d e =>
    rw [one, kinds?_after, curve horizontal]
    simp
  | case3 horizontal pen a b c d args more s ih =>
    have notOne : args.length ≠ 1 := fun one => by
      obtain ⟨e, rfl⟩ := List.length_eq_one_iff.mp one
      exact more e rfl
    have same : (a :: b :: c :: d :: args).length % 4 ≤ 1 ∧
        (a :: b :: c :: d :: args).length ≠ 1 ↔ args.length % 4 ≤ 1 ∧ args.length ≠ 1 := by
      simp only [List.length_cons]
      omega
    rw [kinds?_after, ih, length_group, curve horizontal]
    simp only [same]
    split <;> rfl
  | case4 args horizontal pen notNil _ few =>
    have some := List.length_pos_iff.mpr notNil
    have few := length_lt_four few
    rw [if_neg (by omega), kinds?_refuse]

/-! ### Operators -/

theorem kinds?_ofMove (kind : Move) (pen : Point) (args : List Float32) :
    (ofMove kind pen args).kinds? =
      if (PathOperator.move kind).Accepts args.length then some [.move] else none := by
  unfold ofMove
  split
  · rfl
  · rfl
  · rfl
  · rename_i two horizontal vertical
    rw [if_neg, kinds?_refuse]
    intro accepted
    cases kind with
    | rmoveto => match args, accepted with | [a, b], _ => exact two a b rfl rfl
    | hmoveto => match args, accepted with | [a], _ => exact horizontal a rfl rfl
    | vmoveto => match args, accepted with | [a], _ => exact vertical a rfl rfl

theorem kinds?_hvlineto (horizontal : Bool) (pen : Point) (args : List Float32) :
    (hvlineto horizontal pen args).kinds? =
      if 1 ≤ args.length then some (.replicate args.length .line) else none := by
  have some : ¬args.isEmpty = true ↔ 1 ≤ args.length := by
    rw [List.isEmpty_iff, ← ne_eq, ← List.length_pos_iff]
    rfl
  rw [hvlineto, ← ite_not]
  exact kinds?_guarded some fun _ => kinds?_alternatingLines horizontal pen args

theorem kinds?_hvcurveto (horizontal : Bool) (pen : Point) (args : List Float32) :
    (hvcurveto horizontal pen args).kinds? =
      if 4 ≤ args.length ∧ (args.length % 4 = 0 ∨ args.length % 4 = 1) then
        some (.replicate (args.length / 4) .curve)
      else none := by
  unfold hvcurveto
  by_cases few : args.length < 4
  · rw [if_pos few, if_neg (by omega), kinds?_refuse]
  · have same : args.length % 4 ≤ 1 ∧ args.length ≠ 1 ↔
        4 ≤ args.length ∧ (args.length % 4 = 0 ∨ args.length % 4 = 1) := by omega
    rw [if_neg few, kinds?_alternatingCurves]
    simp only [same]

/-- The operand in front is there if the number of operands is odd. -/
theorem length_leading (shift : Point → Float32 → Point) (pen : Point) (args : List Float32) :
    (leading shift pen args).2.length = args.length - args.length % 2 := by
  rw [leading_eq]
  split
  · rename_i odd
    rw [List.length_tail, odd]
  · rename_i even
    rw [show args.length % 2 = 0 by omega, Nat.sub_zero]

/-- Curves along one axis, after an operand in front that may be there. -/
theorem kinds?_leading {one : Point → Float32 → Float32 → Float32 → Float32 → Segment}
    (curve : ∀ pen a b c d, (one pen a b c d).kind = .curve) (shift : Point → Float32 → Point)
    (pen : Point) (args : List Float32) :
    (if (leading shift pen args).2.length % 4 = 0 then
        curvesAlong one (leading shift pen args).1 (leading shift pen args).2
      else refuse).kinds? =
      if args.length % 4 = 0 ∨ args.length % 4 = 1 then some (.replicate (args.length / 4) .curve)
      else none := by
  have length := length_leading shift pen args
  refine kinds?_guarded (by omega) fun groups => ?_
  rw [kinds?_curvesAlong curve, show (leading shift pen args).2.length / 4 = args.length / 4 by omega]

/-- **The number of operands decides** whether an operator accepts them, and which segments it makes. -/
theorem kinds?_drawing (kind : PathOperator) (pen : Point) (args : List Float32) :
    (kind.drawing pen args).kinds? =
      if kind.Accepts args.length then some (kind.segments args.length) else none := by
  cases kind with
  | move kind => exact kinds?_ofMove kind pen args
  | draw kind =>
    cases kind with
    | rlineto => exact kinds?_guarded Iff.rfl fun _ => kinds?_lines pen args
    | hlineto => exact kinds?_hvlineto true pen args
    | vlineto => exact kinds?_hvlineto false pen args
    | rrcurveto => exact kinds?_guarded Iff.rfl fun _ => kinds?_curves pen args
    | hhcurveto => exact kinds?_leading (fun _ _ _ _ _ => rfl) Point.up pen args
    | hvcurveto => exact kinds?_hvcurveto true pen args
    | rcurveline =>
      refine kinds?_guarded ?_ fun accepted => kinds?_andThen ?_ fun pen => ?_
      · exact and_congr_right fun _ => by omega
      · rw [kinds?_curves, List.length_take, Nat.min_eq_left (Nat.sub_le _ _)]
      · rw [kinds?_lines, List.length_drop,
          show (args.length - (args.length - 2)) / 2 = 1 by omega]
        rfl
    | rlinecurve =>
      refine kinds?_guarded ?_ fun accepted => kinds?_andThen ?_ fun pen => ?_
      · exact and_congr_right fun _ => by omega
      · rw [kinds?_lines, List.length_take, Nat.min_eq_left (Nat.sub_le _ _)]
      · rw [kinds?_curves, List.length_drop,
          show (args.length - (args.length - 6)) / 6 = 1 by omega]
        rfl
    | vhcurveto => exact kinds?_hvcurveto false pen args
    | vvcurveto => exact kinds?_leading (fun _ _ _ _ _ => rfl) Point.right pen args
    | flex =>
      refine kinds?_guarded Iff.rfl fun accepted => ?_
      rw [kinds?_curves, List.length_take, accepted]
      rfl
    | hflex =>
      show (hflex pen args).kinds? = _
      unfold hflex
      split
      · rfl
      · rename_i other
        rw [if_neg, kinds?_refuse]
        intro accepted
        match args, accepted with | [a, b, c, d, e, f, g], _ => exact other a b c d e f g rfl
    | hflex1 =>
      show (hflex1 pen args).kinds? = _
      unfold hflex1
      split
      · rfl
      · rename_i other
        rw [if_neg, kinds?_refuse]
        intro accepted
        match args, accepted with
        | [a, b, c, d, e, f, g, h, i], _ => exact other a b c d e f g h i rfl
    | flex1 =>
      show (flex1 pen args).kinds? = _
      unfold flex1
      split
      · rfl
      · rename_i other
        rw [if_neg, kinds?_refuse]
        intro accepted
        match args, accepted with
        | [a, b, c, d, e, f, g, h, i, j, k], _ => exact other a b c d e f g h i j k rfl

end Drawing

/-! ### Performing an operator -/

theorem Segment.kind_scaled (s : Segment) (scale : Float32) : (s.scaled scale).kind = s.kind := by
  cases s <;> rfl

theorem PathOperator.move_notMem_segments (n : Nat) (kind : Draw) :
    .move ∉ segments n (.draw kind) := by
  cases kind <;> simp [segments, List.mem_replicate]

/-- An operator closes the contour that is open if it moves, and makes the calls for its segments. -/
theorem PathOperator.calls_of_drawn {kind : PathOperator} {n : Nat} {segments : List Segment}
    (made : segments.map Segment.kind = kind.segments n) (p : Plotter) :
    ∃ calls, (p.plotAll segments).calls = p.calls ++ calls ∧
      calls.map Call.kind = kind.calls p.contourOpen n := by
  cases kind with
  | move kind =>
    obtain ⟨s, rfl, moves⟩ := List.map_eq_singleton_iff.mp made
    cases s with
    | line stop | curve first second stop => cases moves
    | move stop =>
      have sent : (p.plotAll [.move stop]).calls =
          p.closeOpen.calls ++ [.segment (.move (stop.scaled p.closeOpen.scale))] :=
        p.closeOpen.calls_send _
      by_cases opened : p.contourOpen = true
      · rw [sent, Plotter.closeOpen_of_open opened, Plotter.calls_send, List.append_assoc]
        exact ⟨_, rfl, (if_pos opened).symm⟩
      · rw [sent, Plotter.closeOpen_of_shut (by simpa using opened)]
        exact ⟨_, rfl, (if_neg opened).symm⟩
  | draw kind =>
    have strokes (stop : Point) : .move stop ∉ segments := fun h =>
      move_notMem_segments n kind (made ▸ List.mem_map_of_mem h)
    refine ⟨_, p.calls_plotAll strokes, ?_⟩
    have same : (Call.kind ∘ fun s => Call.segment (s.scaled p.scale)) = Segment.kind :=
      funext fun s => s.kind_scaled p.scale
    rw [List.map_map, same, made]
    rfl

/-- **What comes of an operator** is decided by the number of operands that wait. If the operator accepts so
many, it makes its calls, whatever the operands, and leaves no operand waiting. Otherwise it fails. -/
theorem Frame.operate_path (kind : PathOperator) (f : Frame) (p : Plotter) (taken : Taken)
    (value : Int32) :
    (kind.Accepts f.stack.toList.length ∧ ∃ g q calls,
      f.operate p ⟨kind.op, taken, value⟩ = .next g q ∧ g.stack.toList = [] ∧
        q.calls = p.calls ++ calls ∧
        calls.map Call.kind = kind.calls p.contourOpen f.stack.toList.length) ∨
      ¬kind.Accepts f.stack.toList.length ∧ ∃ q,
        f.operate p ⟨kind.op, taken, value⟩ = .fail .wrongOperandCount q := by
  have operation : f.operate p ⟨kind.op, taken, value⟩ =
      f.drawn p (kind.drawing f.pen f.stack.toList) := by cases kind <;> rfl
  have counts : (kind.drawing f.pen f.stack.toList).Counts := by
    cases kind with
    | move kind => exact Drawing.counts_ofMove kind _ _
    | draw kind => exact Drawing.counts_ofDraw kind _ _
  have kinds := Drawing.kinds?_drawing kind f.pen f.stack.toList
  rw [operation]
  generalize kind.drawing f.pen f.stack.toList = drawing at counts kinds ⊢
  obtain ⟨segments, outcome⟩ := drawing
  cases outcome with
  | ok stop =>
    by_cases accepted : kind.Accepts f.stack.toList.length
    · rw [if_pos accepted] at kinds
      obtain ⟨calls, added, made⟩ := PathOperator.calls_of_drawn (Option.some.inj kinds) p
      exact .inl ⟨accepted, _, _, calls, rfl, ArgStack.toList_clear _, added, made⟩
    · rw [if_neg accepted] at kinds
      cases kinds
  | error fault =>
    by_cases accepted : kind.Accepts f.stack.toList.length
    · rw [if_pos accepted] at kinds
      cases kinds
    · cases counts fault rfl
      exact .inr ⟨accepted, _, rfl⟩

end CompactFont
