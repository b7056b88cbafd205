/-!
# Segments and calls

An outline is drawn by a pen. A segment takes the pen to a point: by a move, along a line, or along
a cubic curve with two control points. Whoever takes in an outline is called for each segment, when a
contour is closed, and before the first and after the last contour of a glyph.

All numbers are numbers of 32 bits, and each operation on them rounds. It is an assumption here that the
product of a point and a number is taken of each coordinate by itself, with one rounding (`Point.scaled`):
points are left to a library of vectors, which may multiply both coordinates at once.
-/

namespace CompactFont

/-- A point of an outline. -/
structure Point where
  /-- The distance along the horizontal. -/
  x : Float32
  /-- The distance along the vertical. -/
  y : Float32
  deriving DecidableEq

namespace Point

/-- Where outlines start. -/
def origin : Point := ⟨0, 0⟩

/-- The point at a distance from another. -/
def shift (p : Point) (dx dy : Float32) : Point := ⟨p.x + dx, p.y + dy⟩

/-- The point at a distance along the horizontal. -/
def right (p : Point) (dx : Float32) : Point := ⟨p.x + dx, p.y⟩

/-- The point at a distance along the vertical. -/
def up (p : Point) (dy : Float32) : Point := ⟨p.x, p.y + dy⟩

/-- The point with both distances multiplied. -/
def scaled (p : Point) (scale : Float32) : Point := ⟨p.x * scale, p.y * scale⟩

end Point

/-- A way of the pen. -/
inductive Segment where
  /-- A move, which starts a contour. -/
  | move (stop : Point)
  /-- A line. -/
  | line (stop : Point)
  /-- A cubic curve. -/
  | curve (first second stop : Point)
  deriving DecidableEq

namespace Segment

/-- Where the pen is after a segment. -/
def stop : Segment → Point
  | .move p | .line p | .curve _ _ p => p

/-- The segment with each point multiplied. -/
def scaled (s : Segment) (scale : Float32) : Segment :=
  match s with
  | .move p => .move (p.scaled scale)
  | .line p => .line (p.scaled scale)
  | .curve p q r => .curve (p.scaled scale) (q.scaled scale) (r.scaled scale)

end Segment

/-- A call that is made for a part of an outline. -/
inductive Call where
  /-- The contours of a glyph begin; their number may be known. -/
  | beginContours (count : Option Nat)
  /-- The pen takes a segment. -/
  | segment (segment : Segment)
  /-- The contour is closed. -/
  | close
  /-- The contours of a glyph end. -/
  | endContours
  deriving DecidableEq

namespace Call

/-- The call with each point multiplied. -/
def scaled (c : Call) (scale : Float32) : Call :=
  match c with
  | .segment s => .segment (s.scaled scale)
  | other => other

/-- Whether a contour is open after a call, when it is known whether one was open before. -/
def opens (c : Call) (wasOpen : Bool) : Bool :=
  match c with
  | .segment (.move _) => true
  | .close => false
  | _ => wasOpen

end Call

end CompactFont
