import CompactFont.Proofs.Outline.Pen
import CompactFont.Proofs.Outline.Reuse

/-!
# Operators that stand for several

An operator that draws many lines or curves could be written as several operators, each with its share of
the operands (`Composite`): lines can be parted between any two of them, and so can curves; operators for
curves and a line, or for lines and a curve, are the two one after the other; a flex is two curves, and
its depth is not used.

The parts, performed in sequence, make the same calls as the one operator and leave the pen at the same
point (`Composite.drawn_alike`). The drawings say why: a chain of segments for an append of operands is the
chain for the front and, from where that ends, the chain for the rest (`Drawing.lines_append`,
`Drawing.alternatingLines_append`, `Drawing.curves_append`).
-/

namespace CompactFont

open Charstring (Draw Instruction)

/-! ### Chains for an append of operands -/

namespace Drawing

/-- The drawing does not go wrong. -/
def Succeeds (d : Drawing) : Prop := ∃ stop, d.outcome = .ok stop

theorem succeeds_rest (pen : Point) : (rest pen).Succeeds := ⟨pen, rfl⟩

theorem Succeeds.after {d : Drawing} (h : d.Succeeds) (s : Segment) : (d.after s).Succeeds := h

theorem Succeeds.andThen {d : Drawing} {next : Point → Drawing} (h : d.Succeeds)
    (hnext : ∀ pen, (next pen).Succeeds) : (d.andThen next).Succeeds := by
  obtain ⟨segments, outcome⟩ := d
  obtain ⟨middle, rfl⟩ := h
  exact hnext middle

@[simp] theorem rest_andThen (pen : Point) (next : Point → Drawing) :
    (rest pen).andThen next = next pen := rfl

@[simp] theorem andThen_rest (d : Drawing) : d.andThen rest = d := by
  obtain ⟨segments, outcome⟩ := d
  cases outcome with
  | ok stop => simp [andThen, rest]
  | error fault => rfl

theorem andThen_eq_ok {d : Drawing} {next : Point → Drawing} {segments : List Segment} {stop : Point} :
    d.andThen next = ⟨segments, .ok stop⟩ ↔ ∃ front middle back, d = ⟨front, .ok middle⟩ ∧
      next middle = ⟨back, .ok stop⟩ ∧ segments = front ++ back := by
  obtain ⟨front, outcome⟩ := d
  cases outcome with
  | ok middle =>
    simp only [andThen, mk.injEq]
    constructor
    · rintro ⟨rfl, ok⟩
      exact ⟨front, middle, (next middle).segments, ⟨rfl, rfl⟩, by rw [← ok], rfl⟩
    · rintro ⟨_, _, back, ⟨rfl, ⟨⟩⟩, hback, rfl⟩
      rw [hback]
      exact ⟨rfl, rfl⟩
  | error fault =>
    refine iff_of_false (fun drawn => by cases drawn) ?_
    rintro ⟨_, _, _, ⟨⟩, -⟩

theorem after_andThen (d : Drawing) (s : Segment) (next : Point → Drawing) :
    (d.after s).andThen next = (d.andThen next).after s := by
  obtain ⟨segments, outcome⟩ := d
  cases outcome <;> rfl

theorem succeeds_lines (pen : Point) (args : List Float32) : (lines pen args).Succeeds := by
  fun_induction lines pen args with
  | case1 pen a b args s ih => exact ih.after s
  | case2 => exact succeeds_rest _

theorem succeeds_alternatingLines (horizontal : Bool) (pen : Point) (args : List Float32) :
    (alternatingLines horizontal pen args).Succeeds := by
  fun_induction alternatingLines horizontal pen args with
  | case1 horizontal pen a args s ih => exact ih.after s
  | case2 => exact succeeds_rest _

theorem succeeds_curves (pen : Point) (args : List Float32) : (curves pen args).Succeeds := by
  fun_induction curves pen args with
  | case1 pen a b c d e f args s ih => exact ih.after s
  | case2 => exact succeeds_rest _

/-- Lines can be parted after any of them. -/
theorem lines_append (pen : Point) {a : List Float32} (even : a.length % 2 = 0) (b : List Float32) :
    lines pen (a ++ b) = (lines pen a).andThen fun pen => lines pen b := by
  fun_induction lines pen a with
  | case1 pen x y a s ih =>
    have even : a.length % 2 = 0 := by
      simp only [List.length_cons] at even
      omega
    rw [after_andThen, ← ih even, List.cons_append, List.cons_append, lines]
  | case2 a pen few =>
    match a with
    | [] => rfl
    | [_] => cases even
    | x :: y :: a => exact absurd rfl (few x y a)

/-- Lines along the horizontal and the vertical in turn can be parted after any of them; after an odd
number of lines it is the turn of the other axis. -/
theorem alternatingLines_append (horizontal : Bool) (pen : Point) (a b : List Float32) :
    alternatingLines horizontal pen (a ++ b) =
      (alternatingLines horizontal pen a).andThen fun pen =>
        alternatingLines (if a.length % 2 = 0 then horizontal else !horizontal) pen b := by
  fun_induction alternatingLines horizontal pen a with
  | case1 horizontal pen x a s ih =>
    -- One line more in front, and the other axis first: whose turn it is after the front is the same.
    have turn : (if a.length % 2 = 0 then !horizontal else !!horizontal) =
        if (x :: a).length % 2 = 0 then horizontal else !horizontal := by
      have other : (x :: a).length % 2 = 0 ↔ ¬a.length % 2 = 0 := by
        simp only [List.length_cons]
        omega
      simp only [other, ite_not, Bool.not_not]
    rw [after_andThen, ← turn, ← ih, List.cons_append, alternatingLines]
  | case2 => rfl

/-- Curves can be parted after any of them. -/
theorem curves_append (pen : Point) {a : List Float32} (six : a.length % 6 = 0) (b : List Float32) :
    curves pen (a ++ b) = (curves pen a).andThen fun pen => curves pen b := by
  fun_induction curves pen a with
  | case1 pen p q r s t u a segment ih =>
    have six : a.length % 6 = 0 := by
      simp only [List.length_cons] at six
      omega
    rw [after_andThen, ← ih six]
    simp only [List.cons_append, curves]
    rfl
  | case2 a pen few =>
    match a with
    | [] => rfl
    | [_] | [_, _] | [_, _, _] | [_, _, _, _] | [_, _, _, _, _] => cases six
    | p :: q :: r :: s :: t :: u :: a => exact absurd rfl (few p q r s t u a)

end Drawing

/-! ### Operators and their parts -/

/-- An operator that draws, and its operands. -/
structure Part where
  /-- The operator. -/
  kind : Draw
  /-- The operands. -/
  args : List Float32

namespace Drawing

/-- What an operator draws with its operands. -/
def ofPart (part : Part) (pen : Point) : Drawing := ofDraw part.kind pen part.args

/-- What several operators draw, each from where the one before it ends. -/
def ofParts : List Part → Point → Drawing
  | [] => rest
  | part :: parts => fun pen => (ofPart part pen).andThen (ofParts parts)

theorem ofParts_singleton (part : Part) : ofParts [part] = ofPart part :=
  funext fun pen => andThen_rest (ofPart part pen)

theorem ofParts_pair (part part' : Part) (pen : Point) :
    ofParts [part, part'] pen = (ofPart part pen).andThen (ofPart part') := by
  rw [ofParts, ofParts_singleton]

end Drawing

/-- The operator for lines along one axis and the other in turn. -/
def lineAlong (horizontal : Bool) : Draw := if horizontal then .hlineto else .vlineto

/-- An operator stands for several. -/
inductive Composite : Part → List Part → Prop where
  /-- Lines are lines, and then more of them. -/
  | lines {a b : List Float32} (front : a.length % 2 = 0) (back : b.length % 2 = 0) :
      Composite ⟨.rlineto, a ++ b⟩ [⟨.rlineto, a⟩, ⟨.rlineto, b⟩]
  /-- So are lines along the axes; it depends on their number along which axis the second ones start. -/
  | alternating (horizontal : Bool) {a b : List Float32} (front : a ≠ []) (back : b ≠ []) :
      Composite ⟨lineAlong horizontal, a ++ b⟩
        [⟨lineAlong horizontal, a⟩,
          ⟨lineAlong (if a.length % 2 = 0 then horizontal else !horizontal), b⟩]
  /-- Curves are curves, and then more of them. -/
  | curves {a b : List Float32} (front : a.length % 6 = 0) (back : b.length % 6 = 0) :
      Composite ⟨.rrcurveto, a ++ b⟩ [⟨.rrcurveto, a⟩, ⟨.rrcurveto, b⟩]
  /-- Curves and a line. -/
  | curvesLine {a b : List Float32} (front : a.length % 6 = 0) (some : a ≠ []) (back : b.length = 2) :
      Composite ⟨.rcurveline, a ++ b⟩ [⟨.rrcurveto, a⟩, ⟨.rlineto, b⟩]
  /-- Lines and a curve. -/
  | linesCurve {a b : List Float32} (front : a.length % 2 = 0) (some : a ≠ []) (back : b.length = 6) :
      Composite ⟨.rlinecurve, a ++ b⟩ [⟨.rlineto, a⟩, ⟨.rrcurveto, b⟩]
  /-- Two curves, whatever the depth. -/
  | flex {a : List Float32} (depth : Float32) (two : a.length = 12) :
      Composite ⟨.flex, a ++ [depth]⟩ [⟨.rrcurveto, a⟩]

namespace Drawing

variable {a b : List Float32}

theorem ofPart_rlineto (even : a.length % 2 = 0) : ofPart ⟨.rlineto, a⟩ = (lines · a) :=
  funext fun _ => if_pos even

theorem ofPart_rrcurveto (six : a.length % 6 = 0) : ofPart ⟨.rrcurveto, a⟩ = (curves · a) :=
  funext fun _ => if_pos six

theorem ofPart_lineAlong (horizontal : Bool) (some : a ≠ []) :
    ofPart ⟨lineAlong horizontal, a⟩ = (alternatingLines horizontal · a) := by
  have some : ¬a.isEmpty = true := fun none => some (List.isEmpty_iff.mp none)
  funext pen
  cases horizontal <;> exact if_neg some

theorem ofPart_rcurveline (front : a.length % 6 = 0) (some : a ≠ []) (back : b.length = 2) :
    ofPart ⟨.rcurveline, a ++ b⟩ = fun pen => (curves pen a).andThen (lines · b) := by
  have positive := List.length_pos_iff.mpr some
  have length : (a ++ b).length - 2 = a.length := by rw [List.length_append, back, Nat.add_sub_cancel]
  have accepted : 8 ≤ (a ++ b).length ∧ ((a ++ b).length - 2) % 6 = 0 := by
    rw [length]
    simp only [List.length_append, back]
    omega
  funext pen
  show rcurveline pen (a ++ b) = _
  rw [rcurveline, if_pos accepted, length, List.take_left, List.drop_left]

theorem ofPart_rlinecurve (front : a.length % 2 = 0) (some : a ≠ []) (back : b.length = 6) :
    ofPart ⟨.rlinecurve, a ++ b⟩ = fun pen => (lines pen a).andThen (curves · b) := by
  have positive := List.length_pos_iff.mpr some
  have length : (a ++ b).length - 6 = a.length := by rw [List.length_append, back, Nat.add_sub_cancel]
  have accepted : 8 ≤ (a ++ b).length ∧ ((a ++ b).length - 6) % 2 = 0 := by
    rw [length]
    simp only [List.length_append, back]
    omega
  funext pen
  show rlinecurve pen (a ++ b) = _
  rw [rlinecurve, if_pos accepted, length, List.take_left, List.drop_left]

theorem ofPart_flex (two : a.length = 12) (depth : Float32) :
    ofPart ⟨.flex, a ++ [depth]⟩ = (curves · a) := by
  have accepted : (a ++ [depth]).length = 13 := by rw [List.length_append, two]; rfl
  funext pen
  show flex pen (a ++ [depth]) = _
  rw [flex, if_pos accepted, ← two, List.take_left]

end Drawing

/-- An operator that stands for several draws what they draw, and does not go wrong. -/
theorem Composite.drawing_eq {whole : Part} {parts : List Part} (h : Composite whole parts)
    (pen : Point) : Drawing.ofPart whole pen = Drawing.ofParts parts pen ∧
      (Drawing.ofPart whole pen).Succeeds := by
  open Drawing in
  cases h with
  | @lines a b front back =>
    have both : (a ++ b).length % 2 = 0 := by
      rw [List.length_append]
      omega
    rw [ofParts_pair, ofPart_rlineto front, ofPart_rlineto back, ofPart_rlineto both]
    exact ⟨lines_append pen front b, succeeds_lines pen _⟩
  | @alternating horizontal a b front back =>
    have both : a ++ b ≠ [] := List.append_ne_nil_of_left_ne_nil front b
    rw [ofParts_pair, ofPart_lineAlong _ front, ofPart_lineAlong _ back, ofPart_lineAlong _ both]
    exact ⟨alternatingLines_append horizontal pen a b, succeeds_alternatingLines horizontal pen _⟩
  | @curves a b front back =>
    have both : (a ++ b).length % 6 = 0 := by
      rw [List.length_append]
      omega
    rw [ofParts_pair, ofPart_rrcurveto front, ofPart_rrcurveto back, ofPart_rrcurveto both]
    exact ⟨curves_append pen front b, succeeds_curves pen _⟩
  | @curvesLine a b front some back =>
    have line : b.length % 2 = 0 := by rw [back]
    rw [ofParts_pair, ofPart_rrcurveto front, ofPart_rlineto line, ofPart_rcurveline front some back]
    exact ⟨rfl, (succeeds_curves pen a).andThen fun pen => succeeds_lines pen b⟩
  | @linesCurve a b front some back =>
    have curve : b.length % 6 = 0 := by rw [back]
    rw [ofParts_pair, ofPart_rlineto front, ofPart_rrcurveto curve, ofPart_rlinecurve front some back]
    exact ⟨rfl, (succeeds_lines pen a).andThen fun pen => succeeds_curves pen b⟩
  | @flex a depth two =>
    have both : a.length % 6 = 0 := by rw [two]
    rw [ofParts_singleton, ofPart_rrcurveto both, ofPart_flex two]
    exact ⟨rfl, succeeds_curves pen a⟩

/-! ### Performing operators -/

/-- There is room for the operands. -/
def Part.Fits (part : Part) : Prop := part.args.length ≤ ArgStack.capacity

instance (part : Part) : Decidable part.Fits := inferInstanceAs (Decidable (_ ≤ _))

/-- The parts of an operator have no more operands than it has. -/
theorem Composite.fits {whole : Part} {parts : List Part} (h : Composite whole parts)
    (room : whole.Fits) : ∀ part ∈ parts, part.Fits := by
  cases h <;>
    simp only [Part.Fits, List.length_append, List.forall_mem_cons, List.not_mem_nil, false_implies,
      implies_true, and_true] at room ⊢ <;>
    omega

namespace ArgStack

/-- Operands for which there is room can be pushed. -/
theorem exists_pushAll {s : ArgStack} {xs : List Float32} (room : s.toList.length + xs.length ≤ capacity) :
    ∃ t, s.pushAll xs = .ok t ∧ t.toList = s.toList ++ xs := by
  induction xs generalizing s with
  | nil => exact ⟨s, rfl, (List.append_nil _).symm⟩
  | cons x xs ih =>
    rw [List.length_cons] at room
    have pushed := s.map_toList_push x
    rw [if_pos (by omega)] at pushed
    obtain ⟨t, ht, toList⟩ := map_eq_ok.mp pushed
    obtain ⟨u, hu, live⟩ := ih (s := t) (by rw [toList, List.length_append, List.length_singleton]; omega)
    refine ⟨u, ?_, by rw [live, toList, List.append_assoc, List.singleton_append]⟩
    rw [pushAll, ht]
    exact hu

end ArgStack

namespace Frame

/-- Pushes the operands of an operator, and performs it. -/
def drawPart (f : Frame) (p : Plotter) (part : Part) : Step :=
  match f.stack.pushAll part.args with
  | .ok stack => operate { f with stack } p (.plain (.draw part.kind))
  | .error fault => .fail fault p

/-- Pushes the operands of several operators and performs these, one after the other. -/
def drawParts (f : Frame) (p : Plotter) : List Part → Step
  | [] => .next f p
  | part :: parts =>
    match f.drawPart p part with
    | .next f p => drawParts f p parts
    | step => step

variable {f : Frame} {p : Plotter} {segments : List Segment} {stop : Point}

/-- An operator makes the calls for what it draws, and takes the pen along. -/
theorem drawPart_eq {part : Part} (none : f.stack.toList = []) (room : part.Fits)
    (drawn : Drawing.ofPart part f.pen = ⟨segments, .ok stop⟩) :
    ∃ g, f.drawPart p part = .next g (p.plotAll segments) ∧ g.pen = stop ∧ g.stack.toList = [] := by
  have fits : f.stack.toList.length + part.args.length ≤ ArgStack.capacity := by
    rw [none, List.length_nil, Nat.zero_add]
    exact room
  obtain ⟨stack, pushed, live⟩ := ArgStack.exists_pushAll fits
  rw [none, List.nil_append] at live
  refine ⟨⟨stop, stack.clear⟩, ?_, rfl, ArgStack.toList_clear stack⟩
  have operation : f.drawPart p part = Frame.drawn { f with stack } p (.ofPart part f.pen) := by
    simp only [drawPart, pushed, operate, Instruction.plain, live]
    rfl
  rw [operation, drawn]
  rfl

/-- So do several. -/
theorem drawParts_eq {parts : List Part} (none : f.stack.toList = []) (room : ∀ part ∈ parts, part.Fits)
    (drawn : Drawing.ofParts parts f.pen = ⟨segments, .ok stop⟩) :
    ∃ g, f.drawParts p parts = .next g (p.plotAll segments) ∧ g.pen = stop ∧ g.stack.toList = [] := by
  induction parts generalizing f p segments with
  | nil =>
    cases drawn
    exact ⟨f, rfl, rfl, none⟩
  | cons part parts ih =>
    obtain ⟨first, others⟩ := List.forall_mem_cons.mp room
    obtain ⟨front, middle, back, hfront, hback, rfl⟩ := Drawing.andThen_eq_ok.mp drawn
    obtain ⟨g, hg, rfl, empty⟩ := drawPart_eq (p := p) none first hfront
    obtain ⟨h, hh, pen, empty⟩ := ih (p := p.plotAll front) empty others hback
    refine ⟨h, ?_, pen, empty⟩
    simp only [drawParts, hg, hh, Plotter.plotAll_append]

end Frame

/-- **An operator that stands for several is as good as these**, if there is room on the stack for its
operands: wherever the pen starts, the same calls are made, and the pen is left at the same point. -/
theorem Composite.drawn_alike {whole : Part} {parts : List Part} (h : Composite whole parts)
    (room : whole.Fits) (f : Frame) (none : f.stack.toList = []) (p : Plotter) :
    ∃ g g' q, f.drawPart p whole = .next g q ∧ f.drawParts p parts = .next g' q ∧ g.Alike g' := by
  obtain ⟨same, stop, outcome⟩ := h.drawing_eq f.pen
  cases drawn : Drawing.ofPart whole f.pen with
  | mk segments _ =>
    rw [drawn] at outcome same
    cases outcome
    obtain ⟨g, hg, pen, empty⟩ := Frame.drawPart_eq (p := p) none room drawn
    obtain ⟨g', hg', pen', empty'⟩ := Frame.drawParts_eq (p := p) none (h.fits room) same.symm
    exact ⟨g, g', _, hg, hg', pen.trans pen'.symm, empty.trans empty'.symm⟩

/-- Five lines along the axes are three and two; the fourth is a vertical one. -/
theorem Composite.drawn_alike_hlineto :
    let whole : Part := ⟨.hlineto, [1, 2, 3] ++ [4, 5]⟩
    let parts : List Part := [⟨.hlineto, [1, 2, 3]⟩, ⟨.vlineto, [4, 5]⟩]
    Composite whole parts ∧ whole.Fits ∧ Frame.new.stack.toList = [] ∧
      ∃ g g' q, Frame.new.drawPart (.start 1) whole = .next g q ∧
        Frame.new.drawParts (.start 1) parts = .next g' q ∧ g.Alike g' ∧ g.pen = ⟨9, 6⟩ := by
  intro whole parts
  have composite : Composite whole parts := .alternating true nofun nofun
  have room : whole.Fits := by decide
  obtain ⟨g, g', q, drawn, parted, alike⟩ := composite.drawn_alike room .new rfl (.start 1)
  refine ⟨composite, room, rfl, g, g', q, drawn, parted, alike, ?_⟩
  cases drawn
  decide +kernel

end CompactFont
