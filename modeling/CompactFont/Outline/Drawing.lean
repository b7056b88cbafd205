import CompactFont.Charstring.Op
import CompactFont.Fault
import CompactFont.Outline.Segment

/-!
# Drawing operators

An operator that moves or draws takes all the operands there are and leads the pen along segments,
the end of each being the start of the next. What it draws (`Drawing`) are the segments and the pen
after them, or the fault that there are too few operands or too many; some operators find that out
only after they have drawn.

The distances are added up in the order in which they are given, with one rounding each. Where an
operator gives no distance along an axis the coordinate is taken over as it is, and nothing is added.
-/

namespace CompactFont

open Charstring (Move Draw)

/-- What an operator draws. -/
structure Drawing where
  /-- The segments. -/
  segments : List Segment
  /-- The pen after them, or what went wrong then. -/
  outcome : Except FontFault Point

namespace Drawing

/-- Nothing is drawn. -/
def rest (pen : Point) : Drawing := ⟨[], .ok pen⟩

/-- The number of operands is wrong. -/
def refuse : Drawing := ⟨[], .error .wrongOperandCount⟩

/-- A segment and what is drawn after it. -/
def after (d : Drawing) (s : Segment) : Drawing := ⟨s :: d.segments, d.outcome⟩

/-- One segment is drawn. -/
def one (s : Segment) : Drawing := (rest s.stop).after s

/-- What is drawn and, unless that goes wrong, what is drawn next. -/
def andThen (d : Drawing) (next : Point → Drawing) : Drawing :=
  match d.outcome with
  | .ok pen => ⟨d.segments ++ (next pen).segments, (next pen).outcome⟩
  | .error _ => d

/-! ### Curves -/

/-- The curve whose control points and end are given by both distances. -/
def curve (pen : Point) (a b c d e f : Float32) : Segment :=
  let p := pen.shift a b
  let q := p.shift c d
  .curve p q (q.shift e f)

/-- The curve that starts along the horizontal and ends along the vertical, up to a last distance
along the horizontal. -/
def curveFromHorizontal (pen : Point) (a b c d e : Float32) : Segment :=
  let p := pen.right a
  let q := p.shift b c
  .curve p q (q.shift e d)

/-- The curve that starts along the vertical and ends along the horizontal, up to a last distance
along the vertical. -/
def curveFromVertical (pen : Point) (a b c d e : Float32) : Segment :=
  let p := pen.up a
  let q := p.shift b c
  .curve p q (q.shift d e)

/-- The curve that starts and ends along the horizontal. -/
def curveHorizontal (pen : Point) (a b c d : Float32) : Segment :=
  let p := pen.right a
  let q := p.shift b c
  .curve p q (q.right d)

/-- The curve that starts and ends along the vertical. -/
def curveVertical (pen : Point) (a b c d : Float32) : Segment :=
  let p := pen.up a
  let q := p.shift b c
  .curve p q (q.up d)

/-! ### Chains of segments -/

/-- Lines, each given by both distances. -/
def lines (pen : Point) : List Float32 → Drawing
  | a :: b :: args => let s := Segment.line (pen.shift a b); (lines s.stop args).after s
  | _ => rest pen

/-- Lines along the horizontal and the vertical in turn. -/
def alternatingLines (horizontal : Bool) (pen : Point) : List Float32 → Drawing
  | a :: args =>
    let s := Segment.line (if horizontal then pen.right a else pen.up a)
    (alternatingLines (!horizontal) s.stop args).after s
  | [] => rest pen

/-- Curves, each given by both distances. -/
def curves (pen : Point) : List Float32 → Drawing
  | a :: b :: c :: d :: e :: f :: args =>
    let s := curve pen a b c d e f
    (curves s.stop args).after s
  | _ => rest pen

/-- Curves that start and end along one axis. -/
def curvesAlong (one : Point → Float32 → Float32 → Float32 → Float32 → Segment) (pen : Point) :
    List Float32 → Drawing
  | a :: b :: c :: d :: args =>
    let s := one pen a b c d
    (curvesAlong one s.stop args).after s
  | _ => rest pen

/-- Curves that start along the horizontal and the vertical in turn, and end along the other axis.
Only the last one can have a last distance along the axis on which it started. -/
def alternatingCurves (horizontal : Bool) (pen : Point) : List Float32 → Drawing
  | [] => rest pen
  | [a, b, c, d, e] => Drawing.one (turn horizontal pen a b c d e)
  | a :: b :: c :: d :: args =>
    let s := turn horizontal pen a b c d 0
    (alternatingCurves (!horizontal) s.stop args).after s
  | _ => refuse
where
  /-- A curve that starts along one axis and ends along the other. -/
  turn (horizontal : Bool) : (pen : Point) → (a b c d e : Float32) → Segment :=
    if horizontal then curveFromHorizontal else curveFromVertical

/-! ### Operators -/

/-- What the operators that start a contour draw. -/
def ofMove (kind : Move) (pen : Point) (args : List Float32) : Drawing :=
  match kind, args with
  | .rmoveto, [a, b] => one (.move (pen.shift a b))
  | .hmoveto, [a] => one (.move (pen.right a))
  | .vmoveto, [a] => one (.move (pen.up a))
  | _, _ => refuse

/-- Takes off the first operand, if the number of operands is odd, and shifts the pen by it. -/
def leading (shift : Point → Float32 → Point) (pen : Point) (args : List Float32) :
    Point × List Float32 :=
  match args with
  | a :: others => if args.length % 2 = 1 then (shift pen a, others) else (pen, args)
  | [] => (pen, args)

/-- Lines. -/
def rlineto (pen : Point) (args : List Float32) : Drawing :=
  if args.length % 2 = 0 then lines pen args else refuse

/-- Lines along the horizontal and the vertical in turn. -/
def hvlineto (horizontal : Bool) (pen : Point) (args : List Float32) : Drawing :=
  if args.isEmpty then refuse else alternatingLines horizontal pen args

/-- Curves. -/
def rrcurveto (pen : Point) (args : List Float32) : Drawing :=
  if args.length % 6 = 0 then curves pen args else refuse

/-- Curves, then a line. -/
def rcurveline (pen : Point) (args : List Float32) : Drawing :=
  if 8 ≤ args.length ∧ (args.length - 2) % 6 = 0 then
    (curves pen (args.take (args.length - 2))).andThen fun pen =>
      lines pen (args.drop (args.length - 2))
  else refuse

/-- Lines, then a curve. -/
def rlinecurve (pen : Point) (args : List Float32) : Drawing :=
  if 8 ≤ args.length ∧ (args.length - 6) % 2 = 0 then
    (lines pen (args.take (args.length - 6))).andThen fun pen =>
      curves pen (args.drop (args.length - 6))
  else refuse

/-- Curves that start and end along the horizontal, after a distance along the vertical. -/
def hhcurveto (pen : Point) (args : List Float32) : Drawing :=
  let (pen, args) := leading Point.up pen args
  if args.length % 4 = 0 then curvesAlong curveHorizontal pen args else refuse

/-- Curves that start and end along the vertical, after a distance along the horizontal. -/
def vvcurveto (pen : Point) (args : List Float32) : Drawing :=
  let (pen, args) := leading Point.right pen args
  if args.length % 4 = 0 then curvesAlong curveVertical pen args else refuse

/-- Curves that start along the horizontal and the vertical in turn. -/
def hvcurveto (horizontal : Bool) (pen : Point) (args : List Float32) : Drawing :=
  if args.length < 4 then refuse else alternatingCurves horizontal pen args

/-- Two curves; how shallow the dip has to be to be drawn as a line is not looked at. -/
def flex (pen : Point) (args : List Float32) : Drawing :=
  if args.length = 13 then curves pen (args.take 12) else refuse

/-- Two curves whose ends and middle are horizontal. -/
def hflex (pen : Point) (args : List Float32) : Drawing :=
  match args with
  | [a, b, c, d, e, f, g] =>
    let p := pen.right a
    let q := p.shift b c
    let middle := q.right d
    let r := middle.right e
    let s : Point := ⟨r.x + f, pen.y⟩
    (one (.curve r s (s.right g))).after (.curve p q middle)
  | _ => refuse

/-- Two curves whose ends are at one height and whose middle is horizontal. -/
def hflex1 (pen : Point) (args : List Float32) : Drawing :=
  match args with
  | [a, b, c, d, e, f, g, h, i] =>
    let p := pen.shift a b
    let q := p.shift c d
    let middle := q.right e
    let r := middle.right f
    let s := r.shift g h
    (one (.curve r s ⟨s.x + i, pen.y⟩)).after (.curve p q middle)
  | _ => refuse

/-- Two curves that end level with their start, along the axis on which the last control point is
further away from it. -/
def flex1 (pen : Point) (args : List Float32) : Drawing :=
  match args with
  | [a, b, c, d, e, f, g, h, i, j, k] =>
    let p := pen.shift a b
    let q := p.shift c d
    let middle := q.shift e f
    let r := middle.shift g h
    let s := r.shift i j
    let stop : Point :=
      if (s.x - pen.x).abs > (s.y - pen.y).abs then ⟨s.x + k, pen.y⟩ else ⟨pen.x, s.y + k⟩
    (one (.curve r s stop)).after (.curve p q middle)
  | _ => refuse

/-- What the operators that draw lines and curves draw. -/
def ofDraw : Draw → (pen : Point) → (args : List Float32) → Drawing
  | .rlineto => rlineto
  | .hlineto => hvlineto true
  | .vlineto => hvlineto false
  | .rrcurveto => rrcurveto
  | .hhcurveto => hhcurveto
  | .hvcurveto => hvcurveto true
  | .rcurveline => rcurveline
  | .rlinecurve => rlinecurve
  | .vhcurveto => hvcurveto false
  | .vvcurveto => vvcurveto
  | .flex => flex
  | .hflex => hflex
  | .hflex1 => hflex1
  | .flex1 => flex1

end Drawing

end CompactFont
