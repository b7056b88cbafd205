import CompactFont.Proofs.Outline.Composite
import CompactFont.Proofs.Outline.Tangents

/-!
# How operators go to the stack

What an operator draws is defined on the list of live operands. An operator does not have this list: it
reads slots by their numbers, takes operands off one by one, and works out from the depth how far to go.
None of that is looked at when it happens, and a slot that is not live would be read without notice.

Here each operator goes to the stack as it does, access by access, and each access is guarded: it is an
error (`Misuse`) to read a slot that is not live, to take off what is not there, to store outside of the
slots, to subtract more from the depth than it is, and to leave operands where there must be none. No
operator comes to such an error. It draws what it should, and leaves no operand if that succeeds (`Draws`;
`ArgStack.draws_move`, `ArgStack.draws_draw`).

Most operators draw chains of segments, with one group of operands after the other. A chain and the laws
that let it be drawn group by group are one structure (`Chain`).
-/

namespace CompactFont

open Charstring (Move Draw)

/-- A use of the stack that nothing stops. -/
inductive Misuse where
  /-- A slot is read that is not live. -/
  | deadSlot
  /-- A slot is read or stored to that does not exist. -/
  | noSlot
  /-- An operand is taken off, and there is none. -/
  | noOperand
  /-- More is subtracted from the depth than it is. -/
  | belowZero
  /-- Operands are left where there must be none. -/
  | leftOver
  deriving DecidableEq

/-- What is made with the stack, unless the stack is misused. -/
abbrev Guarded := Except Misuse

/-! ### Accesses -/

namespace ArgStack

/-- Stores an operand, if there is a slot for it. -/
def store (s : ArgStack) (x : Float32) : Guarded (Except FontFault ArgStack) :=
  if s.depth = capacity then .ok (.error .tooManyOperands)
  else if h : s.depth < capacity then .ok (.ok ⟨s.slots.set s.depth x h, s.depth + 1, h⟩)
  else .error .noSlot

/-- Stores operands, the first one first, as long as there are slots for them. -/
def storeAll (s : ArgStack) : List Float32 → Guarded (Except FontFault ArgStack)
  | [] => .ok (.ok s)
  | x :: xs => do
    match ← s.store x with
    | .ok t => t.storeAll xs
    | .error fault => .ok (.error fault)

/-- Reads a slot. -/
def read (s : ArgStack) (i : Nat) : Guarded Float32 :=
  match s.at? i with
  | some x => if i < s.depth then .ok x else .error .deadSlot
  | none => .error .noSlot

/-- Reads slots, from one on. -/
def readGroup (s : ArgStack) (i : Nat) : Nat → Guarded (List Float32)
  | 0 => .ok []
  | n + 1 => do
    let x ← s.read i
    let xs ← s.readGroup (i + 1) n
    return x :: xs

/-- Takes the latest operand off. -/
def take (s : ArgStack) : Guarded (Float32 × ArgStack) :=
  match s.pop? with
  | some taken => .ok taken
  | none => .error .noOperand

/-- The depth without some operands. -/
def depthLess (s : ArgStack) (n : Nat) : Guarded Nat :=
  if n ≤ s.depth then .ok (s.depth - n) else .error .belowZero

/-- There must be no operand. -/
def mustBeEmpty (s : ArgStack) : Guarded Unit :=
  if s.isEmpty then .ok () else .error .leftOver

variable {s : ArgStack}

theorem isEmpty_iff : s.isEmpty = true ↔ s.depth = 0 := beq_iff_eq

theorem take_depth (s : ArgStack) : s.toList.take s.depth = s.toList := by
  rw [← length_toList, List.take_length]

theorem depth_of_reverse {xs : List Float32} (h : s.toList.reverse = xs) : s.depth = xs.length := by
  rw [← length_toList, ← List.length_reverse, h]

theorem store_eq (s : ArgStack) (x : Float32) : s.store x = .ok (s.push x) := by
  have hle := s.depth_le
  unfold store push
  by_cases full : s.depth = capacity
  · rw [if_pos full, dif_neg (by omega)]
  · have room : s.depth < capacity := by omega
    rw [if_neg full, dif_pos room, dif_pos room]

theorem storeAll_eq (s : ArgStack) (xs : List Float32) : s.storeAll xs = .ok (s.pushAll xs) := by
  induction xs generalizing s with
  | nil => rfl
  | cons x xs ih =>
    rw [storeAll, store_eq, pushAll]
    cases s.push x with
    | ok t => exact ih t
    | error fault => rfl

/-- Just the live operands can be read. -/
theorem read_eq_ok {i : Nat} {x : Float32} : s.read i = .ok x ↔ s.toList[i]? = some x := by
  by_cases live : i < s.depth
  · rw [← at?_eq live, read]
    cases s.at? i with
    | some y => simp [live]
    | none => simp
  · have dead : s.toList[i]? = none := by
      rw [List.getElem?_eq_none_iff, length_toList]
      omega
    rw [dead, read]
    cases s.at? i with
    | some y => simp [live]
    | none => simp

example : empty.read 0 = .error .deadSlot := rfl

/-- A group of live operands is read. -/
theorem readGroup_eq {i n : Nat} (live : i + n ≤ s.depth) :
    s.readGroup i n = .ok ((s.toList.drop i).take n) := by
  induction n generalizing i with
  | zero => rfl
  | succ n ih =>
    have here : i < s.toList.length := by
      rw [length_toList]
      omega
    have first : s.read i = .ok s.toList[i] := read_eq_ok.mpr (List.getElem?_eq_getElem here)
    rw [readGroup, first, ih (by omega), List.drop_eq_getElem_cons here, List.take_succ_cons]
    rfl

/-- The operand is taken off that was in front when the operands were turned round. -/
theorem exists_take {x : Float32} {xs : List Float32} (h : s.toList.reverse = x :: xs) :
    ∃ t : ArgStack, s.take = .ok (x, t) ∧ t.toList.reverse = xs := by
  obtain ⟨t, taken, left⟩ := exists_pop? (List.reverse_eq_cons_iff.mp h)
  refine ⟨t, ?_, ?_⟩
  · rw [take, taken]
  · rw [left, List.reverse_reverse]

theorem depth_lt_of_take {t : ArgStack} {x : Float32} (h : s.take = .ok (x, t)) : t.depth < s.depth := by
  unfold take pop? at h
  split at h
  case h_1 taken some =>
    split at some
    · cases h
      cases some
      change s.depth - 1 < s.depth
      omega
    · cases some
  case h_2 => cases h

theorem depthLess_eq {n : Nat} (h : n ≤ s.depth) : s.depthLess n = .ok (s.depth - n) := if_pos h

theorem mustBeEmpty_eq (h : s.toList = []) : s.mustBeEmpty = .ok () := by
  have depth : s.depth = 0 := by rw [← length_toList, h, List.length_nil]
  exact if_pos (isEmpty_iff.mpr depth)

end ArgStack

/-! ### Chains of segments -/

/-- Segments that are each drawn with a group of operands of one size, with two axes in turn. -/
structure Chain where
  /-- How many operands a group has. -/
  size : Nat
  /-- What is drawn with groups, the first one on the horizontal's turn or not. -/
  draw : (horizontal : Bool) → Point → List Float32 → Drawing
  /-- A group is not empty. -/
  size_pos : 0 < size
  /-- Nothing is drawn without operands. -/
  draw_nil : ∀ horizontal pen, draw horizontal pen [] = .rest pen
  /-- What is drawn does not go wrong. -/
  succeeds : ∀ horizontal pen args, (draw horizontal pen args).Succeeds
  /-- After the first group it is the other axis' turn. -/
  draw_append : ∀ horizontal pen {group : List Float32}, group.length = size → ∀ args,
    draw horizontal pen (group ++ args) =
      (draw horizontal pen group).andThen fun pen => draw (!horizontal) pen args

namespace Drawing

theorem succeeds_curvesAlong (one : Point → Float32 → Float32 → Float32 → Float32 → Segment)
    (pen : Point) (args : List Float32) : (curvesAlong one pen args).Succeeds := by
  fun_induction curvesAlong one pen args with
  | case1 pen a b c d args s ih => exact ih.after s
  | case2 => exact succeeds_rest _

theorem not_succeeds_refuse : ¬refuse.Succeeds := nofun

end Drawing

namespace Chain

/-- Lines. -/
def lines : Chain where
  size := 2
  draw := fun _ => Drawing.lines
  size_pos := by decide
  draw_nil := fun _ _ => rfl
  succeeds := fun _ => Drawing.succeeds_lines
  draw_append := fun _ pen _ two args => Drawing.lines_append pen (by rw [two]) args

/-- Lines along the horizontal and the vertical in turn. -/
def alternatingLines : Chain where
  size := 1
  draw := Drawing.alternatingLines
  size_pos := by decide
  draw_nil := fun _ _ => rfl
  succeeds := Drawing.succeeds_alternatingLines
  draw_append := fun horizontal pen group one args => by
    rw [Drawing.alternatingLines_append, one]
    rfl

/-- Curves. -/
def curves : Chain where
  size := 6
  draw := fun _ => Drawing.curves
  size_pos := by decide
  draw_nil := fun _ _ => rfl
  succeeds := fun _ => Drawing.succeeds_curves
  draw_append := fun _ pen _ six args => Drawing.curves_append pen (by rw [six]) args

/-- Curves that start and end along one axis. -/
def curvesAlong (one : Point → Float32 → Float32 → Float32 → Float32 → Segment) : Chain where
  size := 4
  draw := fun _ => Drawing.curvesAlong one
  size_pos := by decide
  draw_nil := fun _ _ => rfl
  succeeds := fun _ => Drawing.succeeds_curvesAlong one
  draw_append := fun _ pen group four args => by
    match group, four with
    | [a, b, c, d], _ => rfl

end Chain

namespace ArgStack

/-- Draws a chain with the slots from one on, up to another one, and gives the number of the slot
after the last group that is read. -/
def drawChain (s : ArgStack) (chain : Chain) (stop : Nat) (horizontal : Bool) (pen : Point) (i : Nat) :
    Guarded (Drawing × Nat) :=
  if i < stop then do
    let group ← s.readGroup i chain.size
    let drawing := chain.draw horizontal pen group
    match drawing.outcome with
    | .ok pen => do
      let (later, j) ← s.drawChain chain stop (!horizontal) pen (i + chain.size)
      return (drawing.andThen fun _ => later, j)
    | .error _ => return (drawing, i)
  else return (.rest pen, i)
termination_by stop - i
decreasing_by
  have := chain.size_pos
  omega

theorem drawChain_groups {s : ArgStack} (chain : Chain) (horizontal : Bool) (pen : Point) {i n stop : Nat}
    (whole : i + n * chain.size = stop) (live : stop ≤ s.depth) :
    s.drawChain chain stop horizontal pen i =
      .ok (chain.draw horizontal pen ((s.toList.take stop).drop i), stop) := by
  induction n generalizing horizontal pen i with
  | zero =>
    obtain rfl : i = stop := by omega
    have nothing : (s.toList.take i).drop i = [] := by simp
    rw [drawChain, if_neg (Nat.lt_irrefl i), nothing, chain.draw_nil]
    rfl
  | succ n ih =>
    have whole' : i + chain.size + n * chain.size = stop := by
      rw [← whole, Nat.succ_mul]
      omega
    have pos := chain.size_pos
    have more : i < stop := by omega
    -- The slots are a group and those after it.
    have group : (s.toList.drop i).take chain.size = ((s.toList.take stop).drop i).take chain.size := by
      rw [List.drop_take, List.take_take, Nat.min_eq_left (by omega)]
    have split : (s.toList.take stop).drop i =
        (s.toList.drop i).take chain.size ++ (s.toList.take stop).drop (i + chain.size) := by
      rw [group, ← List.drop_drop, List.take_append_drop]
    have length : ((s.toList.drop i).take chain.size).length = chain.size := by
      rw [List.length_take, List.length_drop, length_toList]
      omega
    rw [drawChain, if_pos more, readGroup_eq (by omega), split, chain.draw_append _ _ length]
    obtain ⟨next, ok⟩ := chain.succeeds horizontal pen ((s.toList.drop i).take chain.size)
    simp only [bind, Except.bind, pure, Except.pure, ok, ih (!horizontal) next whole', Drawing.andThen]

/-- With whole groups of live operands, a chain is drawn as it should be, up to the last slot. -/
theorem drawChain_eq {s : ArgStack} (chain : Chain) (horizontal : Bool) (pen : Point) {i stop : Nat}
    (hi : i ≤ stop) (whole : (stop - i) % chain.size = 0) (live : stop ≤ s.depth) :
    s.drawChain chain stop horizontal pen i =
      .ok (chain.draw horizontal pen ((s.toList.take stop).drop i), stop) := by
  have groups : (stop - i) / chain.size * chain.size = stop - i :=
    Nat.div_mul_cancel (Nat.dvd_of_mod_eq_zero whole)
  have whole : i + (stop - i) / chain.size * chain.size = stop := by
    rw [groups]
    omega
  exact drawChain_groups chain horizontal pen whole live

end ArgStack

/-! ### Operators -/

/-- The stack is used as it may be, the drawing is the one that is meant, and no operand is left unless
it goes wrong. -/
def Draws (drawn : Guarded (Drawing × ArgStack)) (meant : Drawing) : Prop :=
  ∃ left : ArgStack, drawn = .ok (meant, left) ∧ (meant.Succeeds → left.toList = [])

namespace ArgStack

/-- Draws nothing, as the number of operands is wrong. -/
def refuse (s : ArgStack) : Guarded (Drawing × ArgStack) := .ok (.refuse, s)

theorem draws_refuse (s : ArgStack) : Draws s.refuse .refuse :=
  ⟨s, rfl, fun h => absurd h Drawing.not_succeeds_refuse⟩

theorem draws_clear (s : ArgStack) (d : Drawing) : Draws (.ok (d, s.clear)) d :=
  ⟨s.clear, rfl, fun _ => s.toList_clear⟩

/-- Draws with a number of operands, of which only so many are read. -/
def drawExactly (s : ArgStack) (count reads : Nat) (draw : List Float32 → Drawing) :
    Guarded (Drawing × ArgStack) :=
  if s.depth = count then do
    let args ← s.readGroup 0 reads
    return (draw args, s.clear)
  else s.refuse

/-- Draws a chain with all operands, if their number is right. -/
def drawAll (s : ArgStack) (chain : Chain) (accepts : Nat → Prop) [DecidablePred accepts]
    (horizontal : Bool) (pen : Point) : Guarded (Drawing × ArgStack) :=
  if accepts s.depth then do
    let (drawing, _) ← s.drawChain chain s.depth horizontal pen 0
    return (drawing, s.clear)
  else s.refuse

/-- Draws a chain with all operands but the last ones, and a segment of another chain with these. There
must be eight operands at least. -/
def drawThenLast (s : ArgStack) (front last : Chain) (pen : Point) : Guarded (Drawing × ArgStack) :=
  if s.depth < 8 then s.refuse
  else do
    let stop ← s.depthLess last.size
    if stop % front.size = 0 then
      let (drawing, i) ← s.drawChain front stop true pen 0
      let group ← s.readGroup i last.size
      return (drawing.andThen fun pen => last.draw true pen group, s.clear)
    else s.refuse

/-- Draws curves along one axis with the operands from one on. -/
def drawAlongFrom (s : ArgStack) (i : Nat)
    (one : Point → Float32 → Float32 → Float32 → Float32 → Segment) (pen : Point) :
    Guarded (Drawing × ArgStack) := do
  let count ← s.depthLess i
  if count % 4 = 0 then
    let (drawing, _) ← s.drawChain (.curvesAlong one) s.depth true pen i
    return (drawing, s.clear)
  else s.refuse

/-- Draws curves along one axis, with an operand in front of them that may shift the pen. -/
def drawAlong (s : ArgStack) (shift : Point → Float32 → Point)
    (one : Point → Float32 → Float32 → Float32 → Float32 → Segment) (pen : Point) :
    Guarded (Drawing × ArgStack) :=
  if s.depth % 2 = 1 then do
    let a ← s.read 0
    s.drawAlongFrom 1 one (shift pen a)
  else s.drawAlongFrom 0 one pen

/-- Takes the operands of a curve off: four, and a fifth one if it is the last of all. -/
def takeGroup (s : ArgStack) : Guarded (Group × ArgStack) := do
  let (a, s) ← s.take
  let (b, s) ← s.take
  let (c, s) ← s.take
  let (d, s) ← s.take
  if s.depth = 1 then
    let (e, s) ← s.take
    return (⟨a, b, c, d, e⟩, s)
  else return (⟨a, b, c, d, 0⟩, s)

theorem depth_lt_of_takeGroup {s t : ArgStack} {g : Group} (h : s.takeGroup = .ok (g, t)) :
    t.depth < s.depth := by
  obtain ⟨⟨a, s₁⟩, ha, h⟩ := bind_eq_ok.mp h
  obtain ⟨⟨b, s₂⟩, hb, h⟩ := bind_eq_ok.mp h
  obtain ⟨⟨c, s₃⟩, hc, h⟩ := bind_eq_ok.mp h
  obtain ⟨⟨d, s₄⟩, hd, h⟩ := bind_eq_ok.mp h
  have := depth_lt_of_take ha
  have := depth_lt_of_take hb
  have := depth_lt_of_take hc
  have := depth_lt_of_take hd
  dsimp only at h
  split at h
  · obtain ⟨⟨e, s₅⟩, he, h⟩ := bind_eq_ok.mp h
    have := depth_lt_of_take he
    cases h
    change s₅.depth < s.depth
    omega
  · cases h
    omega

/-- Draws curves that start along the horizontal and the vertical in turn, and takes their operands
off. -/
def drawTurns (s : ArgStack) (horizontal : Bool) (pen : Point) : Guarded (Drawing × ArgStack) :=
  if s.isEmpty then .ok (.rest pen, s)
  else if s.depth < 4 then s.refuse
  else
    match h : s.takeGroup with
    | .ok (g, t) => do
      have := depth_lt_of_takeGroup h
      let segment := Drawing.alternatingCurves.turn horizontal pen g.a g.b g.c g.d g.e
      let (later, left) ← t.drawTurns (!horizontal) segment.stop
      return (later.after segment, left)
    | .error misuse => .error misuse
termination_by s.depth

/-- Turns the operands round, and draws curves that start along the two axes in turn; if that goes well
there must be no operand. -/
def drawAlternating (s : ArgStack) (horizontal : Bool) (pen : Point) : Guarded (Drawing × ArgStack) :=
  if s.depth < 4 then s.refuse
  else do
    let (drawing, left) ← s.reverse.drawTurns horizontal pen
    if drawing.outcome.isOk then left.mustBeEmpty
    return (drawing, left)

/-- Performs an operator that starts a contour. -/
def move (s : ArgStack) (pen : Point) : Move → Guarded (Drawing × ArgStack)
  | .rmoveto => s.drawExactly 2 2 (.ofMove .rmoveto pen)
  | .hmoveto => s.drawExactly 1 1 (.ofMove .hmoveto pen)
  | .vmoveto => s.drawExactly 1 1 (.ofMove .vmoveto pen)

/-- Performs an operator that draws lines and curves. -/
def draw (s : ArgStack) (pen : Point) : Draw → Guarded (Drawing × ArgStack)
  | .rlineto => s.drawAll .lines (· % 2 = 0) true pen
  | .hlineto => s.drawAll .alternatingLines (· ≠ 0) true pen
  | .vlineto => s.drawAll .alternatingLines (· ≠ 0) false pen
  | .rrcurveto => s.drawAll .curves (· % 6 = 0) true pen
  | .rcurveline => s.drawThenLast .curves .lines pen
  | .rlinecurve => s.drawThenLast .lines .curves pen
  | .hhcurveto => s.drawAlong Point.up Drawing.curveHorizontal pen
  | .vvcurveto => s.drawAlong Point.right Drawing.curveVertical pen
  | .hvcurveto => s.drawAlternating true pen
  | .vhcurveto => s.drawAlternating false pen
  | .flex => s.drawExactly 13 12 (.curves pen)
  | .hflex => s.drawExactly 7 7 (.hflex pen)
  | .hflex1 => s.drawExactly 9 9 (.hflex1 pen)
  | .flex1 => s.drawExactly 11 11 (.flex1 pen)

end ArgStack

/-! ### What the operators draw -/

namespace ArgStack

variable (s : ArgStack) (pen : Point)

/-- An operator that draws only with a number of operands draws nothing with another number. -/
theorem draws_drawExactly {count reads : Nat} {draw : List Float32 → Drawing}
    (meant : List Float32 → Drawing) (enough : reads ≤ count)
    (right : s.depth = count → meant s.toList = draw (s.toList.take reads))
    (wrong : s.depth ≠ count → meant s.toList = .refuse) :
    Draws (s.drawExactly count reads draw) (meant s.toList) := by
  by_cases h : s.depth = count
  · have group : s.readGroup 0 reads = .ok (s.toList.take reads) := by
      rw [readGroup_eq (by omega), List.drop_zero]
    rw [drawExactly, if_pos h, group, right h]
    exact s.draws_clear _
  · rw [drawExactly, if_neg h, wrong h]
    exact s.draws_refuse

theorem draws_drawAll (chain : Chain) (accepts : Nat → Prop) [DecidablePred accepts]
    (horizontal : Bool) (whole : accepts s.depth → s.depth % chain.size = 0) :
    Draws (s.drawAll chain accepts horizontal pen)
      (if accepts s.depth then chain.draw horizontal pen s.toList else .refuse) := by
  by_cases h : accepts s.depth
  · rw [drawAll, if_pos h, if_pos h,
      drawChain_eq chain horizontal pen (Nat.zero_le _) (whole h) (Nat.le_refl _), List.drop_zero, take_depth]
    exact s.draws_clear _
  · rw [drawAll, if_neg h, if_neg h]
    exact s.draws_refuse

theorem draws_drawThenLast (front last : Chain) (few : last.size ≤ 8) :
    Draws (s.drawThenLast front last pen)
      (if 8 ≤ s.toList.length ∧ (s.toList.length - last.size) % front.size = 0 then
        (front.draw true pen (s.toList.take (s.toList.length - last.size))).andThen fun pen =>
          last.draw true pen (s.toList.drop (s.toList.length - last.size))
      else .refuse) := by
  rw [length_toList]
  by_cases short : s.depth < 8
  · rw [drawThenLast, if_pos short, if_neg (by omega)]
    exact s.draws_refuse
  rw [drawThenLast, if_neg short, depthLess_eq (by omega)]
  by_cases whole : (s.depth - last.size) % front.size = 0
  · have rest : s.readGroup (s.depth - last.size) last.size =
        .ok (s.toList.drop (s.depth - last.size)) := by
      rw [readGroup_eq (by omega), List.take_of_length_le]
      rw [List.length_drop, length_toList]
      omega
    have drawn := drawChain_eq front true pen (Nat.zero_le (s.depth - last.size)) whole (Nat.sub_le _ _)
    rw [if_pos ⟨by omega, whole⟩]
    simp only [bind, Except.bind, pure, Except.pure, whole, if_true, drawn, rest, List.drop_zero]
    exact s.draws_clear _
  · rw [if_neg fun h => whole h.2]
    simp only [bind, Except.bind, whole, if_false]
    exact s.draws_refuse

theorem draws_drawAlongFrom {i : Nat} (hi : i ≤ s.depth)
    (one : Point → Float32 → Float32 → Float32 → Float32 → Segment) :
    Draws (s.drawAlongFrom i one pen)
      (if (s.toList.drop i).length % 4 = 0 then Drawing.curvesAlong one pen (s.toList.drop i)
      else .refuse) := by
  rw [List.length_drop, length_toList, drawAlongFrom, depthLess_eq hi]
  by_cases whole : (s.depth - i) % 4 = 0
  · simp only [bind, Except.bind, pure, Except.pure, whole, if_true,
      drawChain_eq (.curvesAlong one) true pen hi whole (Nat.le_refl _), take_depth]
    exact s.draws_clear _
  · simp only [bind, Except.bind, whole, if_false]
    exact s.draws_refuse

theorem draws_drawAlong (shift : Point → Float32 → Point)
    (one : Point → Float32 → Float32 → Float32 → Float32 → Segment) :
    Draws (s.drawAlong shift one pen)
      (if (Drawing.leading shift pen s.toList).2.length % 4 = 0 then
        Drawing.curvesAlong one (Drawing.leading shift pen s.toList).1
          (Drawing.leading shift pen s.toList).2
      else .refuse) := by
  rw [Drawing.leading_eq, length_toList, drawAlong]
  by_cases odd : s.depth % 2 = 1
  · have live : 1 ≤ s.depth := by omega
    have here : 0 < s.toList.length := by
      rw [length_toList]
      omega
    have first : s.read 0 = .ok (s.toList.headD 0) := by
      rw [read_eq_ok, List.getElem?_eq_getElem here, List.headD_eq_head?_getD, List.head?_eq_getElem?,
        List.getElem?_eq_getElem here]
      rfl
    simp only [if_pos odd, first, ← List.drop_one]
    exact s.draws_drawAlongFrom _ live one
  · simp only [if_neg odd]
    exact s.draws_drawAlongFrom pen (Nat.zero_le _) one

variable {s}

/-- The operands of a curve are taken off that were in front when the operands were turned round. -/
theorem exists_takeGroup {a b c d : Float32} {args : List Float32}
    (h : s.toList.reverse = a :: b :: c :: d :: args) :
    ∃ t : ArgStack, s.takeGroup = .ok (.nth (a :: b :: c :: d :: args) 0, t) ∧
      t.toList.reverse = if args.length = 1 then [] else args := by
  obtain ⟨s₁, ha, h⟩ := exists_take h
  obtain ⟨s₂, hb, h⟩ := exists_take h
  obtain ⟨s₃, hc, h⟩ := exists_take h
  obtain ⟨s₄, hd, h⟩ := exists_take h
  have depth := depth_of_reverse h
  simp only [takeGroup, ha, hb, hc, hd, bind, Except.bind, pure, Except.pure, depth]
  by_cases one : args.length = 1
  · obtain ⟨e, rfl⟩ := List.length_eq_one_iff.mp one
    obtain ⟨s₅, he, h⟩ := exists_take h
    refine ⟨s₅, ?_, h⟩
    simp only [he]
    rfl
  · refine ⟨s₄, ?_, ?_⟩
    · rw [if_neg one, Group.nth_zero one]
    · rw [if_neg one, h]

/-- A curve is drawn with the operands that are taken off, and what is drawn then with the others. -/
theorem draws_turn {t : ArgStack} {g : Group} {horizontal : Bool} {pen : Point} {later : Drawing}
    (enough : 4 ≤ s.depth) (taken : s.takeGroup = .ok (g, t))
    (onward : Draws (t.drawTurns (!horizontal)
      (Drawing.alternatingCurves.turn horizontal pen g.a g.b g.c g.d g.e).stop) later) :
    Draws (s.drawTurns horizontal pen)
      (later.after (Drawing.alternatingCurves.turn horizontal pen g.a g.b g.c g.d g.e)) := by
  have some : ¬s.isEmpty := by
    rw [isEmpty_iff]
    omega
  rw [drawTurns, if_neg some, if_neg (by omega)]
  split
  case h_1 g' t' taken' =>
    cases taken.symm.trans taken'
    obtain ⟨left, drawn, empty⟩ := onward
    refine ⟨left, ?_, empty⟩
    simp only [drawn, bind, Except.bind, pure, Except.pure]
  case h_2 misuse failed =>
    rw [taken] at failed
    cases failed

theorem draws_drawTurns (horizontal : Bool) (pen : Point) (args : List Float32) :
    ∀ s : ArgStack, s.toList.reverse = args →
      Draws (s.drawTurns horizontal pen) (.alternatingCurves horizontal pen args) := by
  have none {u : ArgStack} (hu : u.toList.reverse = []) (horizontal : Bool) (pen : Point) :
      Draws (u.drawTurns horizontal pen) (.rest pen) := by
    refine ⟨u, ?_, fun _ => List.reverse_eq_nil_iff.mp hu⟩
    rw [drawTurns, if_pos (isEmpty_iff.mpr (depth_of_reverse hu))]
  fun_induction Drawing.alternatingCurves horizontal pen args with
  | case1 horizontal pen => exact fun s h => none h horizontal pen
  | case2 horizontal pen a b c d e =>
    intro s h
    obtain ⟨t, taken, others⟩ := exists_takeGroup h
    exact draws_turn (by rw [depth_of_reverse h]; simp) taken (none others _ _)
  | case3 horizontal pen a b c d args more segment ih =>
    intro s h
    have notOne : args.length ≠ 1 := fun one => by
      obtain ⟨e, rfl⟩ := List.length_eq_one_iff.mp one
      exact more e rfl
    obtain ⟨t, taken, others⟩ := exists_takeGroup h
    rw [if_neg notOne] at others
    rw [Group.nth_zero notOne] at taken
    exact draws_turn (by rw [depth_of_reverse h]; simp) taken (ih t others)
  | case4 args horizontal pen notNil _ few =>
    intro s h
    have depth := depth_of_reverse h
    have few := Drawing.length_lt_four few
    have some := List.length_pos_iff.mpr notNil
    have notEmpty : ¬s.isEmpty := by
      rw [isEmpty_iff]
      omega
    rw [drawTurns, if_neg notEmpty, if_pos (by omega)]
    exact s.draws_refuse

theorem draws_drawAlternating (s : ArgStack) (horizontal : Bool) (pen : Point) :
    Draws (s.drawAlternating horizontal pen) (.hvcurveto horizontal pen s.toList) := by
  rw [drawAlternating, Drawing.hvcurveto, length_toList]
  by_cases few : s.depth < 4
  · rw [if_pos few, if_pos few]
    exact s.draws_refuse
  rw [if_neg few, if_neg few]
  have turned : s.reverse.toList.reverse = s.toList := by rw [toList_reverse, List.reverse_reverse]
  obtain ⟨left, drawn, empty⟩ := draws_drawTurns horizontal pen _ _ turned
  refine ⟨left, ?_, empty⟩
  simp only [drawn, bind, Except.bind, pure, Except.pure]
  cases outcome : (Drawing.alternatingCurves horizontal pen s.toList).outcome with
  | ok stop =>
    rw [mustBeEmpty_eq (empty ⟨stop, outcome⟩)]
    rfl
  | error fault => rfl

/-- Other numbers of operands than the right one are refused. -/
theorem draws_exactly (s : ArgStack) {n : Nat} {draw : List Float32 → Drawing}
    (wrong : ∀ args : List Float32, args.length ≠ n → draw args = .refuse) :
    Draws (s.drawExactly n n draw) (draw s.toList) := by
  apply s.draws_drawExactly draw (Nat.le_refl n)
  · intro right
    rw [← right, take_depth]
  · intro other
    exact wrong _ (by rwa [length_toList])

/-- **Operators that start a contour** use the stack as they may, and draw what they should. -/
theorem draws_move (s : ArgStack) (pen : Point) (kind : Move) :
    Draws (s.move pen kind) (.ofMove kind pen s.toList) := by
  cases kind with
  | rmoveto =>
    apply s.draws_exactly
    rintro args wrong
    match args, wrong with
    | [], _ | [_], _ | _ :: _ :: _ :: _, _ => rfl
  | hmoveto =>
    apply s.draws_exactly
    rintro args wrong
    match args, wrong with
    | [], _ | _ :: _ :: _, _ => rfl
  | vmoveto =>
    apply s.draws_exactly
    rintro args wrong
    match args, wrong with
    | [], _ | _ :: _ :: _, _ => rfl

/-- **Operators that draw lines and curves** use the stack as they may, and draw what they should. -/
theorem draws_draw (s : ArgStack) (pen : Point) (kind : Draw) :
    Draws (s.draw pen kind) (.ofDraw kind pen s.toList) := by
  have lines (horizontal : Bool) : Draws (s.drawAll .alternatingLines (· ≠ 0) horizontal pen)
      (.hvlineto horizontal pen s.toList) := by
    have some : s.toList.isEmpty = true ↔ s.depth = 0 := by
      rw [List.isEmpty_iff, ← List.length_eq_zero_iff, length_toList]
    have drawn := s.draws_drawAll pen .alternatingLines (· ≠ 0) horizontal fun _ => Nat.mod_one _
    rw [ite_not] at drawn
    simp only [Drawing.hvlineto, some]
    exact drawn
  cases kind with
  | rlineto =>
    rw [Drawing.ofDraw, Drawing.rlineto, length_toList]
    exact s.draws_drawAll pen .lines (· % 2 = 0) true id
  | hlineto => exact lines true
  | vlineto => exact lines false
  | rrcurveto =>
    rw [Drawing.ofDraw, Drawing.rrcurveto, length_toList]
    exact s.draws_drawAll pen .curves (· % 6 = 0) true id
  | rcurveline => exact s.draws_drawThenLast pen .curves .lines (by decide)
  | rlinecurve => exact s.draws_drawThenLast pen .lines .curves (by decide)
  | hhcurveto => exact s.draws_drawAlong pen Point.up Drawing.curveHorizontal
  | vvcurveto => exact s.draws_drawAlong pen Point.right Drawing.curveVertical
  | hvcurveto => exact s.draws_drawAlternating true pen
  | vhcurveto => exact s.draws_drawAlternating false pen
  | flex =>
    apply s.draws_drawExactly (Drawing.flex pen) (by decide)
    · intro right
      rw [Drawing.flex, length_toList, if_pos right]
    · intro wrong
      rw [Drawing.flex, length_toList, if_neg wrong]
  | hflex =>
    apply s.draws_exactly
    intro args wrong
    unfold Drawing.hflex
    split
    · exact absurd rfl wrong
    · rfl
  | hflex1 =>
    apply s.draws_exactly
    intro args wrong
    unfold Drawing.hflex1
    split
    · exact absurd rfl wrong
    · rfl
  | flex1 =>
    apply s.draws_exactly
    intro args wrong
    unfold Drawing.flex1
    split
    · exact absurd rfl wrong
    · rfl

end ArgStack

end CompactFont
