import CompactFont.Charstring.Instruction

/-!
# Compaction

Decoded charstrings are mostly loads of small integers. Compaction writes them with fewer
instructions, in two passes. The first packs runs of loads of integers: up to four of 8 bits, or up
to two of 16 bits, into one load. The second lets an operation whose value is 0 take over the load
before it. Masks take over nothing, since their value is in use.

`expand` is the way back: each operand gets a load of its own again.
-/

namespace CompactFont.Charstring

/-- The two sizes of integers that are packed. -/
inductive Narrow where
  /-- 8 bits. -/
  | byte
  /-- 16 bits. -/
  | short
  deriving DecidableEq

namespace Narrow

/-- How many integers of this size one load holds. -/
def capacity : Narrow → Nat
  | .byte => 4
  | .short => 2

/-- The least size that has room for an integer. The two outermost integers of each size are not
counted in. -/
def of? (n : Int32) : Option Narrow :=
  let n := n.toInt
  if -128 < n ∧ n < 127 then some .byte
  else if -32768 < n ∧ n < 32767 then some .short
  else none

end Narrow

/-- The load that holds some integers of one size, if there are any. -/
def packed : List Int32 → List Instruction
  | [] => []
  | [a] => [.int a]
  | [a, b] => [.withValue (.load .shorts) (packShorts a b)]
  | [a, b, c] => [.withValue (.load .threeBytes) (packBytes a b c 0)]
  | a :: b :: c :: d :: _ => [.withValue (.load .fourBytes) (packBytes a b c d)]

/-- Packs the loads of a list, and keeps its buffers from one list to the next. -/
structure Compactor where
  /-- What the first pass has written. -/
  written : Array Instruction
  /-- Integers that are collected for one load and are not written yet. -/
  run : List Int32
  /-- Their size. -/
  size : Option Narrow

namespace Compactor

/-- A compactor that was not used yet. -/
def new : Compactor := ⟨#[], [], none⟩

/-- Forgets all that is in the buffers. -/
def clear (_ : Compactor) : Compactor := new

/-- Writes the integers that are collected. -/
def writeRun (c : Compactor) : Compactor := ⟨c.written.appendList (packed c.run), [], none⟩

/-- Writes an instruction as it is, after the integers that are collected. -/
def write (c : Compactor) (i : Instruction) : Compactor :=
  let c := c.writeRun
  { c with written := c.written.push i }

/-- Collects an integer of a certain size, with others of that size only. -/
def collect (c : Compactor) (size : Narrow) (n : Int32) : Compactor :=
  let c := if c.size = some size then c else c.writeRun
  let c := { c with run := c.run ++ [n], size := some size }
  if c.run.length = size.capacity then c.writeRun else c

/-- The first pass over one instruction. -/
def feed (c : Compactor) (i : Instruction) : Compactor :=
  if i.isInt then
    match Narrow.of? i.value with
    | some size => c.collect size i.value
    | none => c.write i
  else c.write i

/-- The first pass over a list. -/
def packRuns (c : Compactor) (list : List Instruction) : Compactor :=
  (list.foldl feed c.clear).writeRun

end Compactor

namespace Instruction

/-- How the operands of a load are held when another instruction takes it over, if one can. -/
def takeable? (i : Instruction) : Option Taken :=
  if i.taken = .nothing then
    match i.op with
    | .load .int => some .int
    | .load .shorts => some .shorts
    | .load .fourBytes => some .fourBytes
    | _ => none
  else none

/-- The instruction can take over a load. -/
def takes (i : Instruction) : Bool :=
  i.taken = .nothing ∧ i.value = 0 ∧ !i.op.isLoad ∧ !i.op.isMask

end Instruction

/-- The second pass: each instruction that can takes over the load before it. -/
def takeLoads : List Instruction → List Instruction
  | [] => []
  | [i] => [i]
  | i :: j :: rest =>
    match i.takeable? with
    | some taken =>
      if j.takes then ⟨j.op, taken, i.value⟩ :: takeLoads rest else i :: takeLoads (j :: rest)
    | none => i :: takeLoads (j :: rest)

/-- The list in fewer instructions, and the compactor afterwards. -/
def Compactor.compact (c : Compactor) (list : List Instruction) : List Instruction × Compactor :=
  let c := c.packRuns list
  (takeLoads c.written.toList, c)

/-- The list in fewer instructions. -/
def compact (list : List Instruction) : List Instruction := (Compactor.new.compact list).1

/-- The instructions that one instruction of a compacted list stands for. -/
def Instruction.expand (i : Instruction) : List Instruction :=
  (i.taken.operands i.value).map int ++
    match i.packedOperands with
    | [] => [withValue i.op (if i.taken = .nothing then i.value else 0)]
    | operands => operands.map int

/-- The list with a load for each operand. -/
def expand (list : List Instruction) : List Instruction := list.flatMap Instruction.expand

end CompactFont.Charstring
