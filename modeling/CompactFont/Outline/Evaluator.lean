import CompactFont.Charstring.Instruction
import CompactFont.Outline.ArgStack
import CompactFont.Outline.Drawing
import CompactFont.Outline.Plotter

/-!
# Evaluating instructions

The outline of a glyph comes from its instructions. Loads push operands; operators that draw take
all of them and lead the pen on; hints and the width draw nothing. Arithmetic is not performed. The
instructions may be compacted: what an instruction has taken over is pushed before its operation.

A frame holds the pen and the stack. An evaluator keeps the frames that are not in use, and takes
one out for an evaluation; it is put back reset, whatever came of the evaluation.
-/

namespace CompactFont

open Charstring (Instruction)

/-- The pen and the operands that wait. -/
structure Frame where
  /-- Where the pen is. -/
  pen : Point
  /-- The operands that wait. -/
  stack : ArgStack

/-- What one instruction leads to. -/
inductive Step where
  /-- To the next instruction. -/
  | next (frame : Frame) (plotter : Plotter)
  /-- To the end of the outline. -/
  | halt (frame : Frame) (plotter : Plotter)
  /-- To a fault. -/
  | fail (fault : FontFault) (plotter : Plotter)

/-- An integer as an operand. -/
def operandOfInt32 (n : Int32) : Float32 := Float32.ofInt n.toInt

namespace Frame

/-- The frame in which every outline starts. -/
def new : Frame := ⟨.origin, .empty⟩

/-- A used frame, with the pen back at its start and no operand waiting. -/
def reset (f : Frame) : Frame := ⟨.origin, f.stack.clear⟩

/-- Goes on with the operands that were pushed, if there was room for them. -/
def pushed (f : Frame) (plotter : Plotter) : Except FontFault ArgStack → Step
  | .ok stack => .next { f with stack } plotter
  | .error fault => .fail fault plotter

/-- Goes on after drawing, with no operand waiting. -/
def drawn (f : Frame) (plotter : Plotter) (drawing : Drawing) : Step :=
  let plotter := plotter.plotAll drawing.segments
  match drawing.outcome with
  | .ok pen => .next ⟨pen, f.stack.clear⟩ plotter
  | .error fault => .fail fault plotter

/-- The operation of an instruction. -/
def operate (f : Frame) (plotter : Plotter) (i : Instruction) : Step :=
  match i.op with
  | .load .int => f.pushed plotter (f.stack.push (operandOfInt32 i.value))
  | .load .fixed => f.pushed plotter (f.stack.push i.fixedValue)
  | .load _ => f.pushed plotter (f.stack.pushAll (i.packedOperands.map operandOfInt32))
  | .width => .next f plotter
  | .stem _ | .mask _ _ => .next { f with stack := f.stack.clear } plotter
  | .move kind => f.drawn plotter (.ofMove kind f.pen f.stack.toList)
  | .draw kind => f.drawn plotter (.ofDraw kind f.pen f.stack.toList)
  | .endchar => .halt { f with stack := f.stack.clear } plotter.closeOpen
  | .ret => .halt { f with stack := f.stack.clear } plotter
  | .call _ => .fail .callNotInlined plotter
  | .arithmetic _ => .next f plotter

/-- Pushes what an instruction has taken over, and then performs its operation. -/
def step (f : Frame) (plotter : Plotter) (i : Instruction) : Step :=
  match f.stack.pushAll ((i.taken.operands i.value).map operandOfInt32) with
  | .ok stack => operate { f with stack } plotter i
  | .error fault => .fail fault plotter

/-- Performs instructions up to the end of the outline, or to a fault. -/
def run (f : Frame) (plotter : Plotter) : List Instruction → Frame × Plotter × Option FontFault
  | [] => (f, plotter, none)
  | i :: rest =>
    match f.step plotter i with
    | .next f plotter => run f plotter rest
    | .halt f plotter => (f, plotter, none)
    | .fail fault plotter => (f, plotter, some fault)

end Frame

/-- What came of an evaluation. -/
structure Evaluation where
  /-- The calls that were made. -/
  calls : List Call
  /-- What went wrong after them, if anything did. -/
  fault : Option FontFault
  deriving DecidableEq

/-- Evaluates instructions in a frame; the frame that is left is given back. -/
def Frame.evaluate (f : Frame) (scale : Float32) (list : List Instruction) : Evaluation × Frame :=
  let (f, plotter, fault) := f.run ((Plotter.start scale).send (.beginContours none)) list
  match fault with
  | none => (⟨(plotter.closeOpen.send .endContours).calls, none⟩, f)
  | some fault => (⟨plotter.calls, some fault⟩, f)

/-- Frames that are not in use. -/
structure Evaluator where
  /-- The frames, the one to use next first. -/
  frames : List Frame

namespace Evaluator

/-- An evaluator that was not used yet. -/
def new : Evaluator := ⟨[]⟩

/-- Takes a frame out, or makes one. -/
def takeOut (e : Evaluator) : Frame × Evaluator :=
  match e.frames with
  | f :: frames => (f, ⟨frames⟩)
  | [] => (.new, e)

/-- Puts a frame back. -/
def putBack (e : Evaluator) (f : Frame) : Evaluator := ⟨f.reset :: e.frames⟩

/-- Evaluates instructions to a scale. -/
def evaluate (e : Evaluator) (scale : Float32) (list : List Instruction) : Evaluation × Evaluator :=
  let (frame, e) := e.takeOut
  let (evaluation, frame) := frame.evaluate scale list
  (evaluation, e.putBack frame)

end Evaluator

/-- What comes of the evaluation of instructions to a scale. -/
def evaluate (scale : Float32) (list : List Instruction) : Evaluation :=
  (Evaluator.new.evaluate scale list).1

end CompactFont
