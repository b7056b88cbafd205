import CompactFont.Outline.Segment

/-!
# Plotting to scale

A plotter passes calls on with each coordinate multiplied by its scale, keeps the calls that it
passed on, and knows whether a contour is open. A contour is closed before the next one starts.
-/

namespace CompactFont

/-- Calls passed on to a scale. -/
structure Plotter where
  /-- What coordinates are multiplied by. -/
  scale : Float32
  /-- A contour is open. -/
  contourOpen : Bool
  /-- The calls that were passed on, the latest first. -/
  made : List Call

namespace Plotter

/-- A plotter to which no call was made. -/
def start (scale : Float32) : Plotter := ⟨scale, false, []⟩

/-- Passes on a call. -/
def send (p : Plotter) (c : Call) : Plotter :=
  ⟨p.scale, c.opens p.contourOpen, c.scaled p.scale :: p.made⟩

/-- Closes the contour that is open, if one is. -/
def closeOpen (p : Plotter) : Plotter := if p.contourOpen then p.send .close else p

/-- Draws a segment. -/
def plot (p : Plotter) (s : Segment) : Plotter :=
  match s with
  | .move _ => p.closeOpen.send (.segment s)
  | _ => p.send (.segment s)

/-- Draws segments, the first one first. -/
def plotAll (p : Plotter) (segments : List Segment) : Plotter := segments.foldl plot p

/-- The calls that were passed on, in order. -/
def calls (p : Plotter) : List Call := p.made.reverse

/-! ### The calls after each operation -/

@[simp] theorem calls_send (p : Plotter) (c : Call) :
    (p.send c).calls = p.calls ++ [c.scaled p.scale] := by
  simp [calls, send]

@[simp] theorem scale_send (p : Plotter) (c : Call) : (p.send c).scale = p.scale := rfl

theorem closeOpen_of_open {p : Plotter} (h : p.contourOpen = true) : p.closeOpen = p.send .close :=
  if_pos h

theorem closeOpen_of_shut {p : Plotter} (h : p.contourOpen = false) : p.closeOpen = p := by
  simp [closeOpen, h]

@[simp] theorem contourOpen_closeOpen (p : Plotter) : p.closeOpen.contourOpen = false := by
  by_cases h : p.contourOpen
  · rw [closeOpen_of_open h]
    rfl
  · rw [closeOpen_of_shut (by simpa using h)]
    simpa using h

@[simp] theorem closeOpen_closeOpen (p : Plotter) : p.closeOpen.closeOpen = p.closeOpen :=
  closeOpen_of_shut p.contourOpen_closeOpen

@[simp] theorem plotAll_nil (p : Plotter) : p.plotAll [] = p := rfl

@[simp] theorem plotAll_cons (p : Plotter) (s : Segment) (segments : List Segment) :
    p.plotAll (s :: segments) = (p.plot s).plotAll segments := rfl

theorem plotAll_append (p : Plotter) (segments others : List Segment) :
    p.plotAll (segments ++ others) = (p.plotAll segments).plotAll others :=
  List.foldl_append

end Plotter

end CompactFont
