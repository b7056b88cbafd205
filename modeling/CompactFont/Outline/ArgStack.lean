import CompactFont.Fault
import CompactFont.Text.ShortestDecimal

/-!
# The stack of operands

While an outline is drawn, operands wait on a stack of 50 slots, two more than a charstring is
supposed to need. The slots below the depth are live. A slot keeps its number when it is given up,
so the slots above the depth hold whatever was there before; nothing that is said of a stack depends
on them: its meaning is the list of its live operands (`ArgStack.toList`).
-/

namespace CompactFont

/-- The number of slots of a stack. -/
def ArgStack.capacity : Nat := 50

/-- A stack of operands. -/
structure ArgStack where
  /-- All slots, live or not. -/
  slots : Vector Float32 ArgStack.capacity
  /-- How many of them are live. -/
  depth : Nat
  /-- No more slots are live than there are. -/
  depth_le : depth ≤ ArgStack.capacity

namespace ArgStack

/-- The stack with no live operand and all slots zero. -/
def empty : ArgStack := ⟨Vector.replicate capacity 0, 0, Nat.zero_le _⟩

/-- The live operands, the first one that was pushed first. -/
def toList (s : ArgStack) : List Float32 := s.slots.toList.take s.depth

/-- No operand is live. -/
def isEmpty (s : ArgStack) : Bool := s.depth == 0

/-- Pushes an operand, if there is a slot for it. -/
def push (s : ArgStack) (x : Float32) : Except FontFault ArgStack :=
  if h : s.depth < capacity then .ok ⟨s.slots.set s.depth x h, s.depth + 1, h⟩
  else .error .tooManyOperands

/-- Pushes operands, the first one first, as long as there are slots for them. -/
def pushAll (s : ArgStack) : List Float32 → Except FontFault ArgStack
  | [] => .ok s
  | x :: xs => do (← s.push x).pushAll xs

/-- The operand in a slot, live or not. -/
def at? (s : ArgStack) (i : Nat) : Option Float32 := s.slots[i]?

/-- Takes the latest operand off. -/
def pop? (s : ArgStack) : Option (Float32 × ArgStack) :=
  have hle := s.depth_le
  if h : 0 < s.depth then
    some (s.slots.get ⟨s.depth - 1, by omega⟩, ⟨s.slots, s.depth - 1, by omega⟩)
  else none

/-- Turns the live operands round. -/
def reverse (s : ArgStack) : ArgStack :=
  { s with
    slots := Vector.ofFn fun i =>
      if h : i.val < s.depth then
        have := s.depth_le
        s.slots.get ⟨s.depth - 1 - i.val, by omega⟩
      else s.slots[i] }

/-- Gives up all operands. -/
def clear (s : ArgStack) : ArgStack := ⟨s.slots, 0, Nat.zero_le _⟩

/-- Operands are written with a point always, and from `10 ^ 16` on and below `10 ^ -5` with an
exponent. -/
def numberStyle : DecimalStyle := ⟨true, some (-5, 16)⟩

/-- The text of the live operands. -/
def text (s : ArgStack) : String :=
  "[" ++ ", ".intercalate (s.toList.map numberStyle.text) ++ "]"

/-! ### The live operands after each operation -/

@[simp] theorem toList_empty : empty.toList = [] := rfl

@[simp] theorem toList_clear (s : ArgStack) : s.clear.toList = [] := rfl

@[simp] theorem length_toList (s : ArgStack) : s.toList.length = s.depth := by
  have := s.depth_le
  simp [toList, this]

theorem toList_push {s t : ArgStack} {x : Float32} (h : s.push x = .ok t) :
    t.toList = s.toList ++ [x] := by
  unfold push at h
  split at h
  · cases h
    rename_i hd
    simp only [toList, Vector.toList_set]
    rw [List.take_add_one]
    simp [List.take_set_of_le, hd]
  · cases h

@[simp] theorem toList_reverse (s : ArgStack) : s.reverse.toList = s.toList.reverse := by
  have hle := s.depth_le
  apply List.ext_getElem
  · simp [length_toList, reverse]
  · intro i h _
    have live : i < s.depth := by simpa [reverse] using h
    simp [toList, reverse, live, Nat.min_eq_left hle, Vector.get]

/-- A slot that is live holds the operand of its number. -/
theorem at?_eq {s : ArgStack} {i : Nat} (live : i < s.depth) : s.at? i = s.toList[i]? := by
  have hle := s.depth_le
  simp [at?, toList, live]

/-- What is taken off is the latest operand; the others stay. -/
theorem exists_pop? {s : ArgStack} {xs : List Float32} {x : Float32} (h : s.toList = xs ++ [x]) :
    ∃ t : ArgStack, s.pop? = some (x, t) ∧ t.toList = xs := by
  have hle := s.depth_le
  have depth : s.depth = xs.length + 1 := by
    rw [← length_toList, h, List.length_append, List.length_singleton]
  have pos : 0 < s.depth := by omega
  refine ⟨⟨s.slots, s.depth - 1, by omega⟩, ?_, ?_⟩
  · have slot : s.at? xs.length = some x := by
      rw [at?_eq (by omega), h]
      simp
    obtain ⟨_, rfl⟩ := Vector.getElem?_eq_some_iff.mp slot
    rw [pop?, dif_pos pos]
    simp [depth, Vector.get]
  · have := congrArg (List.take xs.length) h
    rw [toList, List.take_take] at this
    simpa [toList, depth] using this

end ArgStack

end CompactFont
