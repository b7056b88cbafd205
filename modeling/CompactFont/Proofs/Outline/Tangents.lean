import CompactFont.Proofs.Outline.Faults
import Mathlib.Data.List.Basic

/-!
# Curves along the axes

Four operators draw curves whose tangents are along the axes, each from a group of four operands. With
`hvcurveto` and `vhcurveto` the tangent at the start is along the horizontal and the vertical in turn, and
the last curve may have a fifth operand, which takes its end off the axis. With `hhcurveto` and
`vvcurveto` all tangents are along one axis, and an operand in front may shift the pen off it.

What they draw is said here without going through the operands: the curve with number `k` is that of the
group with number `k`, from where the curves before it end (`Chained`), with all coordinates written out.
If an operator accepts the number of its operands, it draws just these curves, and otherwise it fails
(`Frame.operate_tangents`).
-/

namespace CompactFont

open Charstring (Draw Taken)

/-! ### Groups of operands -/

/-- The operands of one curve. -/
structure Group where
  /-- The first operand, along the axis at the start. -/
  a : Float32
  /-- The second operand, always along the horizontal. -/
  b : Float32
  /-- The third operand, always along the vertical. -/
  c : Float32
  /-- The fourth operand, along the axis at the end. -/
  d : Float32
  /-- The fifth operand, along the other axis. -/
  e : Float32

/-- The group with number `k`: four operands, and the one after these if it is the last of all. -/
def Group.nth (args : List Float32) (k : Nat) : Group where
  a := args.getD (4 * k) 0
  b := args.getD (4 * k + 1) 0
  c := args.getD (4 * k + 2) 0
  d := args.getD (4 * k + 3) 0
  e := if 4 * k + 5 = args.length then args.getD (4 * k + 4) 0 else 0

namespace Group

/-- The curve that starts along the horizontal and ends along the vertical, but for the fifth operand. -/
def horizontalVertical (pen : Point) (g : Group) : Segment :=
  .curve ⟨pen.x + g.a, pen.y⟩ ⟨pen.x + g.a + g.b, pen.y + g.c⟩
    ⟨pen.x + g.a + g.b + g.e, pen.y + g.c + g.d⟩

/-- The curve that starts along the vertical and ends along the horizontal, but for the fifth operand. -/
def verticalHorizontal (pen : Point) (g : Group) : Segment :=
  .curve ⟨pen.x, pen.y + g.a⟩ ⟨pen.x + g.b, pen.y + g.a + g.c⟩
    ⟨pen.x + g.b + g.d, pen.y + g.a + g.c + g.e⟩

/-- The curve that starts and ends along the horizontal. -/
def horizontal (pen : Point) (g : Group) : Segment :=
  .curve ⟨pen.x + g.a, pen.y⟩ ⟨pen.x + g.a + g.b, pen.y + g.c⟩
    ⟨pen.x + g.a + g.b + g.d, pen.y + g.c⟩

/-- The curve that starts and ends along the vertical. -/
def vertical (pen : Point) (g : Group) : Segment :=
  .curve ⟨pen.x, pen.y + g.a⟩ ⟨pen.x + g.b, pen.y + g.a + g.c⟩
    ⟨pen.x + g.b, pen.y + g.a + g.c + g.d⟩

/-- The curves along one axis and the other in turn. -/
def alternating (startsHorizontal : Bool) (k : Nat) : Point → Group → Segment :=
  if (k % 2 == 0) = startsHorizontal then horizontalVertical else verticalHorizontal

variable {a b c d : Float32} {args : List Float32}

/-- The groups after the first four operands are those of the other operands. -/
theorem nth_succ (k : Nat) : nth (a :: b :: c :: d :: args) (k + 1) = nth args k := by
  have later (i : Nat) : (a :: b :: c :: d :: args).getD (4 * (k + 1) + i) 0 = args.getD (4 * k + i) 0 := by
    rw [show 4 * (k + 1) + i = 4 * k + i + 1 + 1 + 1 + 1 by omega]
    rfl
  have first : (a :: b :: c :: d :: args).getD (4 * (k + 1)) 0 = args.getD (4 * k) 0 := later 0
  have last : 4 * (k + 1) + 5 = (a :: b :: c :: d :: args).length ↔ 4 * k + 5 = args.length := by
    simp only [List.length_cons]
    omega
  simp only [nth, first, last, later]

theorem nth_zero (h : args.length ≠ 1) : nth (a :: b :: c :: d :: args) 0 = ⟨a, b, c, d, 0⟩ := by
  have notLast : ¬4 * 0 + 5 = (a :: b :: c :: d :: args).length := by
    simp only [List.length_cons]
    omega
  simp only [nth, if_neg notLast]
  rfl

theorem alternating_succ (startsHorizontal : Bool) (k : Nat) :
    alternating startsHorizontal (k + 1) = alternating (!startsHorizontal) k := by
  have parity : (k + 1) % 2 = 0 ↔ ¬k % 2 = 0 := by omega
  cases startsHorizontal <;> simp [alternating, parity]

end Group

/-! ### Chains of curves -/

/-- Each group has a curve, which starts where those before it end. -/
structure Chained (curve : Nat → Point → Group → Segment) (pen : Point) (args : List Float32)
    (segments : List Segment) : Prop where
  /-- There are as many curves as groups. -/
  length : segments.length = args.length / 4
  /-- Each curve is that of its group. -/
  each : ∀ k (_ : k < segments.length),
    segments[k] = curve k (penAfter pen (segments.take k)) (.nth args k)

section

variable {curve : Nat → Point → Group → Segment} {pen : Point} {args : List Float32}
  {segments : List Segment}

/-- Less than four operands make no curve. -/
theorem chained_few (few : args.length < 4) : Chained curve pen args segments ↔ segments = [] := by
  constructor
  · intro h
    exact List.eq_nil_of_length_eq_zero (h.length.trans (Nat.div_eq_of_lt few))
  · rintro rfl
    exact ⟨(Nat.div_eq_of_lt few).symm, nofun⟩

/-- Four operands make one curve, and those after them the others. -/
theorem chained_group {a b c d : Float32} {s : Segment} :
    Chained curve pen (a :: b :: c :: d :: args) (s :: segments) ↔
      s = curve 0 pen (.nth (a :: b :: c :: d :: args) 0) ∧
        Chained (fun k => curve (k + 1)) s.stop args segments := by
  have count : (a :: b :: c :: d :: args).length / 4 = args.length / 4 + 1 := by
    simp only [List.length_cons]
    omega
  have later (k : Nat) : curve (k + 1) (penAfter pen ((s :: segments).take (k + 1)))
      (.nth (a :: b :: c :: d :: args) (k + 1)) =
        curve (k + 1) (penAfter s.stop (segments.take k)) (.nth args k) := by
    rw [List.take_succ_cons, penAfter_cons, Group.nth_succ]
  constructor
  · rintro ⟨length, each⟩
    rw [count, List.length_cons, Nat.add_right_cancel_iff] at length
    refine ⟨each 0 (Nat.succ_pos _), length, fun k hk => ?_⟩
    exact (each (k + 1) (Nat.succ_lt_succ hk)).trans (later k)
  · rintro ⟨first, length, each⟩
    refine ⟨by rw [count, List.length_cons, length], fun k hk => ?_⟩
    cases k with
    | zero => exact first
    | succ k => exact (each k (Nat.lt_of_succ_lt_succ hk)).trans (later k).symm

theorem Chained.exists_cons {a b c d : Float32}
    (h : Chained curve pen (a :: b :: c :: d :: args) segments) :
    ∃ s later, segments = s :: later := by
  cases segments with
  | nil =>
    have length := h.length
    simp only [List.length_nil, List.length_cons] at length
    omega
  | cons s later => exact ⟨s, later, rfl⟩

/-- There are curves for any operands. -/
theorem exists_chained (curve : Nat → Point → Group → Segment) (pen : Point) :
    (args : List Float32) → ∃ segments, Chained curve pen args segments
  | [] | [_] | [_, _] | [_, _, _] => ⟨[], (chained_few (by simp)).mpr rfl⟩
  | a :: b :: c :: d :: args =>
    let s := curve 0 pen (.nth (a :: b :: c :: d :: args) 0)
    have ⟨segments, chained⟩ := exists_chained (fun k => curve (k + 1)) s.stop args
    ⟨s :: segments, chained_group.mpr ⟨rfl, chained⟩⟩

end

namespace Drawing

variable {pen stop : Point} {args : List Float32} {segments : List Segment}

theorem after_eq {d : Drawing} {s : Segment} :
    d.after s = ⟨segments, .ok stop⟩ ↔ ∃ later, segments = s :: later ∧ d = ⟨later, .ok stop⟩ := by
  obtain ⟨later, outcome⟩ := d
  simp only [after, mk.injEq]
  constructor
  · rintro ⟨rfl, rfl⟩
    exact ⟨later, rfl, rfl, rfl⟩
  · rintro ⟨_, rfl, rfl, rfl⟩
    exact ⟨rfl, rfl⟩

/-- What is drawn from one group, and then from the others. -/
theorem after_eq_chained {curve : Nat → Point → Group → Segment} {a b c d : Float32} {s : Segment}
    {others : Drawing} {accepted : Prop}
    (first : s = curve 0 pen (.nth (a :: b :: c :: d :: args) 0))
    (next : ∀ later, others = ⟨later, .ok stop⟩ ↔
      accepted ∧ Chained (fun k => curve (k + 1)) s.stop args later ∧ stop = penAfter s.stop later) :
    others.after s = ⟨segments, .ok stop⟩ ↔
      accepted ∧ Chained curve pen (a :: b :: c :: d :: args) segments ∧
        stop = penAfter pen segments := by
  rw [after_eq]
  constructor
  · rintro ⟨later, rfl, drawn⟩
    obtain ⟨accepted, chained, rfl⟩ := (next later).mp drawn
    exact ⟨accepted, chained_group.mpr ⟨first, chained⟩, (penAfter_cons ..).symm⟩
  · rintro ⟨accepted, chained, rfl⟩
    obtain ⟨s', later, rfl⟩ := chained.exists_cons
    obtain ⟨first', chained⟩ := chained_group.mp chained
    obtain rfl := first'.trans first.symm
    exact ⟨later, rfl, (next later).mpr ⟨accepted, chained, penAfter_cons ..⟩⟩

theorem length_lt_four (few : ∀ a b c d others, args ≠ a :: b :: c :: d :: others) :
    args.length < 4 := by
  match args with
  | [] | [_] | [_, _] | [_, _, _] => simp
  | a :: b :: c :: d :: others => exact absurd rfl (few a b c d others)

theorem rest_eq_chained (curve : Nat → Point → Group → Segment) (few : args.length < 4) :
    rest pen = ⟨segments, .ok stop⟩ ↔
      Chained curve pen args segments ∧ stop = penAfter pen segments := by
  rw [chained_few few]
  constructor
  · intro h
    cases h
    exact ⟨rfl, rfl⟩
  · rintro ⟨rfl, rfl⟩
    rfl

/-- Curves along one axis take all groups. -/
theorem curvesAlong_eq (one : Point → Float32 → Float32 → Float32 → Float32 → Segment) (pen : Point)
    (args : List Float32) : ∀ segments : List Segment,
    curvesAlong one pen args = ⟨segments, .ok stop⟩ ↔
      Chained (fun _ pen g => one pen g.a g.b g.c g.d) pen args segments ∧
        stop = penAfter pen segments := by
  fun_induction curvesAlong one pen args with
  | case1 pen a b c d args s ih =>
    intro segments
    rw [← true_and (Chained ..), and_assoc]
    exact after_eq_chained rfl fun later => by rw [ih, true_and]
  | case2 args pen few => exact fun segments => rest_eq_chained _ (length_lt_four few)

/-- Curves that start along one axis and the other in turn take all groups, if no operands are left over
but one that the last group takes. -/
theorem alternatingCurves_eq (horizontal : Bool) (pen : Point) (args : List Float32) :
    ∀ segments : List Segment, alternatingCurves horizontal pen args = ⟨segments, .ok stop⟩ ↔
      (args.length % 4 ≤ 1 ∧ args.length ≠ 1) ∧
        Chained (Group.alternating horizontal) pen args segments ∧ stop = penAfter pen segments := by
  fun_induction alternatingCurves horizontal pen args with
  | case1 horizontal pen =>
    intro segments
    have few : ([] : List Float32).length < 4 := by simp
    rw [rest_eq_chained (Group.alternating horizontal) few]
    simp
  | case2 horizontal pen a b c d e =>
    intro segments
    have accepted : [a, b, c, d, e].length % 4 ≤ 1 ∧ [a, b, c, d, e].length ≠ 1 := by simp
    refine after_eq_chained ?_ fun later => ?_
    · cases horizontal <;> rfl
    · have few : [e].length < 4 := by simp
      rw [rest_eq_chained _ few]
      exact (and_iff_right accepted).symm
  | case3 horizontal pen a b c d args more s ih =>
    intro segments
    have notOne : args.length ≠ 1 := fun one => by
      obtain ⟨e, rfl⟩ := List.length_eq_one_iff.mp one
      exact more e rfl
    have accepted : (a :: b :: c :: d :: args).length % 4 ≤ 1 ∧
        (a :: b :: c :: d :: args).length ≠ 1 ↔ args.length % 4 ≤ 1 ∧ args.length ≠ 1 := by
      simp only [List.length_cons]
      omega
    rw [accepted]
    refine after_eq_chained ?_ fun later => ?_
    · rw [Group.nth_zero notOne]
      cases horizontal <;> rfl
    · rw [ih]
      simp only [Group.alternating_succ]
  | case4 args horizontal pen notNil _ few =>
    intro segments
    have few := length_lt_four few
    have some := List.length_pos_iff.mpr notNil
    refine iff_of_false (fun drawn => by cases drawn) fun h => ?_
    have accepted := h.1
    omega

end Drawing

/-! ### The four operators -/

/-- Which way the tangents go. -/
inductive Tangents where
  /-- Along the horizontal first, then along both axes in turn. -/
  | hv
  /-- Along the vertical first, then along both axes in turn. -/
  | vh
  /-- Along the horizontal. -/
  | hh
  /-- Along the vertical. -/
  | vv

namespace Tangents

/-- The operator that draws curves with these tangents. -/
def draw : Tangents → Draw
  | hv => .hvcurveto
  | vh => .vhcurveto
  | hh => .hhcurveto
  | vv => .vvcurveto

/-- The curve with number `k`, from where the pen is and its group of operands. -/
def curve : Tangents → (k : Nat) → Point → Group → Segment
  | hv => Group.alternating true
  | vh => Group.alternating false
  | hh => fun _ => Group.horizontal
  | vv => fun _ => Group.vertical

/-- The operands make up groups of four and one more, if any; there is a group where none can be in
front. -/
def Accepts : Tangents → List Float32 → Prop
  | hv, args | vh, args => 4 ≤ args.length ∧ args.length % 4 ≤ 1
  | hh, args | vv, args => args.length % 4 ≤ 1

theorem curve_ne_move (t : Tangents) (k : Nat) (pen : Point) (g : Group) (stop : Point) :
    t.curve k pen g ≠ .move stop := by
  have alternating (startsHorizontal : Bool) :
      Group.alternating startsHorizontal k pen g ≠ .move stop := by
    unfold Group.alternating
    split
    · intro move
      cases move
    · intro move
      cases move
  cases t with
  | hv => exact alternating true
  | vh => exact alternating false
  | hh | vv =>
    intro move
    cases move

/-- Where the first curve starts: an operand in front shifts the pen off the axis. -/
def start (t : Tangents) (pen : Point) (args : List Float32) : Point :=
  match t with
  | hv | vh => pen
  | hh => if args.length % 2 = 1 then ⟨pen.x, pen.y + args.headD 0⟩ else pen
  | vv => if args.length % 2 = 1 then ⟨pen.x + args.headD 0, pen.y⟩ else pen

/-- The operands of the curves, without the one in front. -/
def operands (t : Tangents) (args : List Float32) : List Float32 :=
  match t with
  | hv | vh => args
  | hh | vv => if args.length % 2 = 1 then args.tail else args

end Tangents

/-- Curves are no moves. -/
theorem Chained.move_notMem {t : Tangents} {pen : Point} {args : List Float32} {segments : List Segment}
    (h : Chained t.curve pen args segments) (stop : Point) : .move stop ∉ segments := by
  intro move
  obtain ⟨k, hk, same⟩ := List.getElem_of_mem move
  exact t.curve_ne_move k _ _ stop ((h.each k hk).symm.trans same)

namespace Drawing

variable {pen stop : Point} {args : List Float32} {segments : List Segment}

/-- A drawing that is refused unless a condition holds. -/
theorem guarded_eq {c : Prop} [Decidable c] {d : Drawing} :
    (if c then d else refuse) = ⟨segments, .ok stop⟩ ↔ c ∧ d = ⟨segments, .ok stop⟩ := by
  by_cases h : c
  · rw [if_pos h, and_iff_right h]
  · rw [if_neg h]
    exact iff_of_false (fun drawn => by cases drawn) fun drawn => h drawn.1

theorem hvcurveto_eq (horizontal : Bool) :
    hvcurveto horizontal pen args = ⟨segments, .ok stop⟩ ↔
      (4 ≤ args.length ∧ args.length % 4 ≤ 1) ∧
        Chained (Group.alternating horizontal) pen args segments ∧ stop = penAfter pen segments := by
  rw [hvcurveto, ← ite_not, guarded_eq, alternatingCurves_eq, ← and_assoc]
  exact and_congr_left fun _ => by omega

/-- An operand in front is there if the number of operands is odd. -/
theorem leading_eq (shift : Point → Float32 → Point) (pen : Point) (args : List Float32) :
    leading shift pen args =
      (if args.length % 2 = 1 then shift pen (args.headD 0) else pen,
        if args.length % 2 = 1 then args.tail else args) := by
  cases args with
  | nil => rfl
  | cons a others =>
    simp only [leading]
    split <;> rfl

/-- Curves along one axis, after an operand in front that shifts the pen. -/
theorem curvesAlong_leading_eq (shift : Point → Float32 → Point)
    (one : Point → Float32 → Float32 → Float32 → Float32 → Segment) :
    (if (leading shift pen args).2.length % 4 = 0 then
        curvesAlong one (leading shift pen args).1 (leading shift pen args).2
      else refuse) = ⟨segments, .ok stop⟩ ↔
      args.length % 4 ≤ 1 ∧
        Chained (fun _ pen g => one pen g.a g.b g.c g.d)
          (if args.length % 2 = 1 then shift pen (args.headD 0) else pen)
          (if args.length % 2 = 1 then args.tail else args) segments ∧
        stop = penAfter (if args.length % 2 = 1 then shift pen (args.headD 0) else pen) segments := by
  have groups : (if args.length % 2 = 1 then args.tail else args).length % 4 = 0 ↔
      args.length % 4 ≤ 1 := by
    split
    · rw [List.length_tail]
      omega
    · omega
  rw [leading_eq, guarded_eq, groups, curvesAlong_eq]

/-- What the four operators draw, group by group. -/
theorem ofTangents_eq (t : Tangents) :
    ofDraw t.draw pen args = ⟨segments, .ok stop⟩ ↔
      t.Accepts args ∧ Chained t.curve (t.start pen args) (t.operands args) segments ∧
        stop = penAfter (t.start pen args) segments := by
  cases t with
  | hv => exact hvcurveto_eq true
  | vh => exact hvcurveto_eq false
  | hh => exact curvesAlong_leading_eq Point.up curveHorizontal
  | vv => exact curvesAlong_leading_eq Point.right curveVertical

end Drawing

/-- **Curves along the axes are drawn group by group.** If their number is accepted, the operands that wait
are given up, the curves are those of the groups, each from where the one before it ends, and the pen is
left at the end of the last one. A call is made for each curve, to the scale of the plotter, and no other.
Otherwise the operator fails. -/
theorem Frame.operate_tangents (t : Tangents) (f : Frame) (p : Plotter) (taken : Taken)
    (value : Int32) :
    (t.Accepts f.stack.toList ∧ ∃ segments,
      Chained t.curve (t.start f.pen f.stack.toList) (t.operands f.stack.toList) segments ∧
        f.operate p ⟨.draw t.draw, taken, value⟩ =
          .next ⟨penAfter (t.start f.pen f.stack.toList) segments, f.stack.clear⟩
            (p.plotAll segments) ∧
        (p.plotAll segments).calls =
          p.calls ++ segments.map fun s => .segment (s.scaled p.scale)) ∨
      ¬t.Accepts f.stack.toList ∧ ∃ q,
        f.operate p ⟨.draw t.draw, taken, value⟩ = .fail .wrongOperandCount q := by
  generalize hargs : f.stack.toList = args
  have operation : f.operate p ⟨.draw t.draw, taken, value⟩ =
      f.drawn p (.ofDraw t.draw f.pen args) := by rw [← hargs]; rfl
  rw [operation]
  cases drawing : Drawing.ofDraw t.draw f.pen args with
  | mk segments outcome =>
    cases outcome with
    | ok stop =>
      obtain ⟨accepted, chained, rfl⟩ := (Drawing.ofTangents_eq t).mp drawing
      exact .inl ⟨accepted, segments, chained, rfl, p.calls_plotAll chained.move_notMem⟩
    | error fault =>
      refine .inr ⟨fun accepted => ?_, p.plotAll segments, ?_⟩
      · obtain ⟨others, chained⟩ := exists_chained t.curve (t.start f.pen args) (t.operands args)
        cases drawing.symm.trans ((Drawing.ofTangents_eq t).mpr ⟨accepted, chained, rfl⟩)
      · have counts : fault = .wrongOperandCount :=
          Drawing.counts_ofDraw t.draw f.pen args fault (by rw [drawing])
        rw [counts]
        rfl

/-- Nine operands are a group of four, along the horizontal first, and one of five. To the scale 2, both
curves are twice as large as they are drawn. -/
theorem Frame.operate_tangents_twoGroups :
    ∃ stack : ArgStack, stack.toList = [1, 2, 3, 4, 5, 6, 7, 8, 9] ∧
      ∃ g q, Frame.operate ⟨.origin, stack⟩ (.start 2) (.plain (.draw .hvcurveto)) = .next g q ∧
        g.pen = ⟨17, 28⟩ ∧ g.stack.toList = [] ∧
        q.calls = [.segment (.curve ⟨2, 0⟩ ⟨6, 6⟩ ⟨6, 14⟩),
          .segment (.curve ⟨6, 24⟩ ⟨18, 38⟩ ⟨34, 56⟩)] := by
  obtain ⟨stack, pushed⟩ : ∃ stack, ArgStack.empty.pushAll [1, 2, 3, 4, 5, 6, 7, 8, 9] = .ok stack :=
    ⟨_, rfl⟩
  have live : stack.toList = [1, 2, 3, 4, 5, 6, 7, 8, 9] := ArgStack.toList_pushAll pushed
  refine ⟨stack, live, ?_⟩
  have drawn := operate_tangents .hv ⟨.origin, stack⟩ (.start 2) .nothing 0
  simp only [live] at drawn
  obtain ⟨-, segments, chained, operated, calls⟩ | ⟨refused, -⟩ := drawn
  · obtain ⟨first, second, rfl⟩ : ∃ first second, segments = [first, second] :=
      List.length_eq_two.mp chained.length
    have one : first = Group.horizontalVertical .origin ⟨1, 2, 3, 4, 0⟩ :=
      chained.each 0 (Nat.zero_lt_two)
    have two : second = Group.verticalHorizontal first.stop ⟨5, 6, 7, 8, 9⟩ :=
      chained.each 1 (Nat.one_lt_two)
    obtain rfl : first = .curve ⟨1, 0⟩ ⟨3, 3⟩ ⟨3, 7⟩ := one.trans (by decide +kernel)
    obtain rfl : second = .curve ⟨3, 12⟩ ⟨9, 19⟩ ⟨17, 28⟩ := two.trans (by decide +kernel)
    exact ⟨_, _, operated, rfl, stack.toList_clear, calls.trans (by decide +kernel)⟩
  · exact absurd ⟨by decide, by decide⟩ refused

end CompactFont
