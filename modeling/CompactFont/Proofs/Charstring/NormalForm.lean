import CompactFont.Proofs.Charstring.Folding
import Mathlib.Data.List.Chain

/-!
# The normal form of compaction

A list is normal if nothing is left to put together in it: no two neighbours load integers of one size,
and no instruction could take over the load before it (`Normal`). The normal lists are those that
compaction leaves alone (`compact_normal`), and what it makes of any list is normal. So a second run
changes nothing.

The first pass parts integers of one size: what it has written, with the integers that are still
collected, has no such neighbours at any time (`Compactor.Spaced`). The second pass takes a load away only
where an operation follows it, and what is there then is no load. So no two loads become neighbours, and
what has taken over one load takes over no other.
-/

namespace CompactFont.Charstring

/-! ### Lists with nothing left to put together -/

namespace Instruction

/-- The size of the integer that an instruction loads, if the first pass collects it. -/
def size? (i : Instruction) : Option Narrow := if i.isInt then Narrow.of? i.value else none

/-- Two neighbours load integers of one size. -/
def Joins (i j : Instruction) : Prop := j.size? ≠ none ∧ j.size? = i.size?

/-- The second of two neighbours can take over the first. -/
def TakesOver (i j : Instruction) : Prop := i.takeable? ≠ none ∧ j.takes = true

/-- Two neighbours that stay as they are. -/
structure Lasting (i j : Instruction) : Prop where
  /-- They are not packed into one load. -/
  parted : ¬i.Joins j
  /-- They are not made one instruction. -/
  kept : ¬i.TakesOver j

@[simp] theorem size?_int (n : Int32) : (int n).size? = Narrow.of? n := rfl

/-- An instruction that has taken over a load is not collected, and has no part in another take-over. -/
theorem size?_of_taken {i : Instruction} (h : i.taken ≠ .nothing) : i.size? = none := by
  simp [size?, isInt, h]

theorem takeable?_of_taken {i : Instruction} (h : i.taken ≠ .nothing) : i.takeable? = none := by
  simp [takeable?, h]

theorem takes_of_taken {i : Instruction} (h : i.taken ≠ .nothing) : i.takes = false := by
  simp [takes, h]

theorem parted_of_size? {j : Instruction} (h : j.size? = none) (i : Instruction) : ¬i.Joins j :=
  fun joins => joins.1 h

theorem lasting_of_taken_left {i : Instruction} (h : i.taken ≠ .nothing) (j : Instruction) :
    i.Lasting j where
  parted := fun ⟨collected, same⟩ => collected (same.trans (size?_of_taken h))
  kept := fun ⟨load, _⟩ => load (takeable?_of_taken h)

theorem lasting_of_taken_right {j : Instruction} (h : j.taken ≠ .nothing) (i : Instruction) :
    i.Lasting j where
  parted := parted_of_size? (size?_of_taken h) i
  kept := fun ⟨_, free⟩ => Bool.false_ne_true ((takes_of_taken h).symm.trans free)

end Instruction

open Instruction (Joins Lasting)

/-- Nothing is left to put together. -/
def Normal (list : List Instruction) : Prop := list.IsChain Lasting

theorem Normal.parted {list : List Instruction} (h : Normal list) :
    list.IsChain fun i j => ¬i.Joins j :=
  h.imp fun _ _ lasting => lasting.parted

theorem Normal.kept {list : List Instruction} (h : Normal list) :
    list.IsChain fun i j => ¬i.TakesOver j :=
  h.imp fun _ _ lasting => lasting.kept

/-! ### The first pass -/

/-- A run of two integers or more is packed into one load, which is not collected again. -/
theorem packed_cons_cons (a b : Int32) (run : List Int32) :
    ∃ i, packed (a :: b :: run) = [i] ∧ i.size? = none := by
  match run with
  | [] => exact ⟨_, rfl, rfl⟩
  | [_] => exact ⟨_, rfl, rfl⟩
  | _ :: _ :: _ => exact ⟨_, rfl, rfl⟩

namespace Compactor

/-- What is written when the integers that are collected are written too. -/
def flushed (c : Compactor) : List Instruction := c.written.toList ++ packed c.run

@[simp] theorem toList_written_writeRun (c : Compactor) : c.writeRun.written.toList = c.flushed := by
  simp [writeRun, flushed]

@[simp] theorem flushed_writeRun (c : Compactor) : c.writeRun.flushed = c.flushed := by
  rw [flushed, toList_written_writeRun]
  exact List.append_nil _

@[simp] theorem flushed_write (c : Compactor) (i : Instruction) :
    (c.write i).flushed = c.flushed ++ [i] := by
  have written : (c.write i).written.toList = c.flushed ++ [i] := by simp [write]
  rw [flushed, written]
  exact List.append_nil _

theorem feed_int (c : Compactor) (n : Int32) :
    c.feed (.int n) =
      match Narrow.of? n with
      | some s => c.collect s n
      | none => c.write (.int n) := rfl

/-- An instruction that does not join the integers that are collected comes after them. If it is itself
collected, it is the only one then. -/
theorem feed_of_apart {c : Compactor} {i : Instruction} (apart : i.size? = none ∨ i.size? ≠ c.size) :
    (c.feed i).flushed = c.flushed ++ [i] ∧ (c.feed i).size = i.size? ∧
      ((c.feed i).size ≠ none → (c.feed i).run ≠ []) := by
  by_cases int : i.isInt = true
  · obtain ⟨n, rfl⟩ : ∃ n, i = .int n := ⟨i.value, Instruction.eq_int_of_isInt int⟩
    cases size : Narrow.of? n with
    | none =>
      have fed : c.feed (.int n) = c.write (.int n) := by simp only [feed_int, size]
      rw [fed, Instruction.size?_int, size, flushed_write]
      exact ⟨rfl, rfl, fun collected => absurd rfl collected⟩
    | some s =>
      rw [Instruction.size?_int, size] at apart ⊢
      have other : c.size ≠ some s := by
        rcases apart with none | other
        · cases none
        · exact other.symm
      have fed : c.feed (.int n) = { c.writeRun with run := [n], size := some s } := by
        simp only [feed_int, size, collect, if_neg other]
        cases s <;> rfl
      rw [fed]
      refine ⟨?_, rfl, fun _ => List.cons_ne_nil n []⟩
      simp only [flushed, toList_written_writeRun, packed]
  · have fed : c.feed i = c.write i := by simp only [feed, int, Bool.false_eq_true, if_false]
    have none : i.size? = none := by simp [Instruction.size?, int]
    rw [fed, none, flushed_write]
    exact ⟨rfl, rfl, fun collected => absurd rfl collected⟩

/-- No two neighbours load integers of one size, in what is written and is yet to be written. The last of
it is an integer only if it could still be joined by others. -/
structure Spaced (c : Compactor) : Prop where
  /-- Neighbours are parted. -/
  parted : c.flushed.IsChain fun i j => ¬i.Joins j
  /-- An integer at the end is of the size that is noted. -/
  last : ∀ i ∈ c.flushed.getLast?, i.size? = none ∨ i.size? = c.size
  /-- A size is noted only with integers. -/
  begun : c.size ≠ none → c.run ≠ []

theorem spaced_new : new.Spaced :=
  ⟨List.isChain_nil, nofun, fun collected => absurd rfl collected⟩

/-- The integers that are collected can be written when there are two of them or more. -/
theorem spaced_joined {written : Array Instruction} {a b : Int32} {run : List Int32}
    {size : Option Narrow} (parted : written.toList.IsChain fun i j => ¬i.Joins j) :
    (⟨written, a :: b :: run, size⟩ : Compactor).Spaced ∧
      (⟨written, a :: b :: run, size⟩ : Compactor).writeRun.Spaced := by
  obtain ⟨i, load, none⟩ := packed_cons_cons a b run
  have flushed : (⟨written, a :: b :: run, size⟩ : Compactor).flushed = written.toList ++ [i] :=
    congrArg (written.toList ++ ·) load
  have parted : (written.toList ++ [i]).IsChain fun i j => ¬i.Joins j :=
    parted.append (List.isChain_singleton i) fun x _ j hj => by
      cases hj
      exact Instruction.parted_of_size? none x
  have last : ∀ j ∈ (written.toList ++ [i]).getLast?, j.size? = Option.none := by
    intro j hj
    rw [List.getLast?_concat] at hj
    cases hj
    exact none
  constructor
  · exact ⟨flushed ▸ parted, fun j hj => .inl (last j (flushed ▸ hj)), fun _ => List.cons_ne_nil _ _⟩
  · rw [← flushed, ← flushed_writeRun] at parted last
    exact ⟨parted, fun j hj => .inl (last j hj), fun collected => absurd rfl collected⟩

/-- An instruction that joins no integer is written behind all others, or starts a run of its own. -/
theorem Spaced.feed_of_apart {c : Compactor} (h : c.Spaced) {i : Instruction}
    (apart : i.size? = none ∨ i.size? ≠ c.size) : (c.feed i).Spaced := by
  obtain ⟨flushed, size, begun⟩ := Compactor.feed_of_apart apart
  refine ⟨?_, ?_, begun⟩
  · rw [flushed]
    refine h.parted.append (List.isChain_singleton i) fun x hx j hj => ?_
    cases hj
    rintro ⟨collected, same⟩
    rcases apart with none | other
    · exact collected none
    · rcases h.last x hx with none | known
      · exact collected (same.trans none)
      · exact other (same.trans known)
  · intro j hj
    rw [flushed, List.getLast?_concat] at hj
    cases hj
    exact .inr size.symm

/-- An integer that is of the size that is noted joins those that are collected, of which there is one at
least. -/
theorem Spaced.feed_of_joins {c : Compactor} (h : c.Spaced) {n : Int32} {s : Narrow}
    (size : Narrow.of? n = some s) (same : c.size = some s) : (c.feed (.int n)).Spaced := by
  obtain ⟨written, run, noted⟩ := c
  obtain rfl : noted = some s := same
  cases run with
  | nil => exact absurd rfl (h.begun (Option.some_ne_none s))
  | cons a run =>
    obtain ⟨b, others, joined⟩ : ∃ b others, a :: run ++ [n] = a :: b :: others := by
      cases run with
      | nil => exact ⟨n, [], rfl⟩
      | cons b run => exact ⟨b, run ++ [n], rfl⟩
    have parted : written.toList.IsChain fun i j => ¬i.Joins j := h.parted.left_of_append
    simp only [feed_int, size, collect, if_true, joined]
    split
    · exact (spaced_joined parted).2
    · exact (spaced_joined parted).1

/-- One step of the first pass. -/
theorem Spaced.feed {c : Compactor} (h : c.Spaced) (i : Instruction) : (c.feed i).Spaced := by
  by_cases apart : i.size? = none ∨ i.size? ≠ c.size
  · exact h.feed_of_apart apart
  · obtain ⟨collected, same⟩ := not_or.mp apart
    have int : i.isInt = true := by
      by_contra other
      exact collected (by simp [Instruction.size?, other])
    obtain ⟨n, rfl⟩ : ∃ n, i = .int n := ⟨i.value, Instruction.eq_int_of_isInt int⟩
    obtain ⟨s, size⟩ := Option.ne_none_iff_exists'.mp collected
    exact h.feed_of_joins size ((not_not.mp same).symm.trans size)

/-- The first pass parts integers of one size. -/
theorem isChain_packRuns (c : Compactor) (list : List Instruction) :
    (c.packRuns list).written.toList.IsChain fun i j => ¬i.Joins j := by
  have spaced {c : Compactor} (h : c.Spaced) : (list.foldl Compactor.feed c).Spaced := by
    induction list generalizing c with
    | nil => exact h
    | cons i list ih => exact ih (h.feed i)
  rw [packRuns, clear, toList_written_writeRun]
  exact (spaced spaced_new).parted

/-- Where integers of one size are parted, the first pass writes each instruction as it is. -/
theorem flushed_foldl_feed {c : Compactor} {list : List Instruction}
    (parted : list.IsChain fun i j => ¬i.Joins j)
    (head : ∀ i ∈ list.head?, i.size? = none ∨ i.size? ≠ c.size) :
    (list.foldl Compactor.feed c).flushed = c.flushed ++ list := by
  induction list generalizing c with
  | nil => simp
  | cons i list ih =>
    obtain ⟨next, parted⟩ := List.isChain_cons.mp parted
    obtain ⟨flushed, size, -⟩ := feed_of_apart (head i rfl)
    rw [List.foldl_cons, ih parted ?_, flushed, List.append_assoc]
    · rfl
    · intro j hj
      rw [size]
      have apart := next j hj
      by_cases none : j.size? = Option.none
      · exact .inl none
      · exact .inr fun same => apart ⟨none, same⟩

theorem packRuns_of_parted (c : Compactor) {list : List Instruction}
    (parted : list.IsChain fun i j => ¬i.Joins j) : (c.packRuns list).written.toList = list := by
  have head : ∀ i ∈ list.head?, i.size? = none ∨ i.size? ≠ new.size := fun i _ => by
    by_cases none : i.size? = none
    · exact .inl none
    · exact .inr none
  rw [packRuns, clear, toList_written_writeRun, flushed_foldl_feed parted head]
  rfl

end Compactor

/-! ### The second pass -/

/-- The second pass begins with the instruction that the list begins with, or with one that has taken
over a load. -/
theorem head?_takeLoads {list : List Instruction} {h : Instruction}
    (head : h ∈ (takeLoads list).head?) : h ∈ list.head? ∨ h.taken ≠ .nothing := by
  revert head
  fun_cases takeLoads list with
  | case1 =>
    intro none
    cases none
  | case2 i => exact .inl
  | case3 i j rest taken load takes =>
    intro head
    cases head
    refine .inr ?_
    rcases Instruction.takeable?_eq_some load with ⟨-, rfl⟩ | ⟨-, rfl⟩ | ⟨-, rfl⟩
    all_goals exact fun none => by cases none
  | case4 i j rest taken load takes => exact .inl
  | case5 i j rest load => exact .inl

/-- Where integers of one size are parted, the second pass leaves nothing to put together. -/
theorem normal_takeLoads {list : List Instruction} (parted : list.IsChain fun i j => ¬i.Joins j) :
    Normal (takeLoads list) := by
  -- An instruction that is written as it is lasts beside the next one, and beside one that has taken over.
  have keep {i j : Instruction} {rest : List Instruction} (parted : ¬i.Joins j)
      (kept : ¬i.TakesOver j) (normal : Normal (takeLoads (j :: rest))) :
      Normal (i :: takeLoads (j :: rest)) := by
    refine List.isChain_cons.mpr ⟨fun h head => ?_, normal⟩
    rcases head?_takeLoads head with same | taken
    · cases same
      exact ⟨parted, kept⟩
    · exact Instruction.lasting_of_taken_right taken i
  fun_induction takeLoads list with
  | case1 => exact List.isChain_nil
  | case2 i => exact List.isChain_singleton i
  | case3 i j rest taken load takes ih =>
    refine List.isChain_cons.mpr ⟨fun h _ => Instruction.lasting_of_taken_left ?_ h, ih parted.tail.tail⟩
    rcases Instruction.takeable?_eq_some load with ⟨-, rfl⟩ | ⟨-, rfl⟩ | ⟨-, rfl⟩
    all_goals exact fun none => by cases none
  | case4 i j rest taken load takes ih =>
    exact keep parted.rel (fun takesOver => takes takesOver.2) (ih parted.tail)
  | case5 i j rest load ih =>
    exact keep parted.rel (fun takesOver => takesOver.1 load) (ih parted.tail)

/-- Where no instruction can take over the one before it, the second pass changes nothing. -/
theorem takeLoads_of_kept {list : List Instruction} (kept : list.IsChain fun i j => ¬i.TakesOver j) :
    takeLoads list = list := by
  fun_induction takeLoads list with
  | case1 => rfl
  | case2 i => rfl
  | case3 i j rest taken load takes ih =>
    exact absurd ⟨Option.ne_none_iff_exists'.mpr ⟨taken, load⟩, takes⟩ kept.rel
  | case4 i j rest taken load takes ih => rw [ih kept.tail]
  | case5 i j rest load ih => rw [ih kept.tail]

/-! ### Both passes -/

/-- Folding does not make a list longer. -/
theorem Folds.length_le {list short : List Instruction} (h : Folds list short) :
    short.length ≤ list.length := by
  induction h with
  | nil => exact Nat.le_refl 0
  | keep i _ ih => exact Nat.succ_le_succ ih
  | pack taken operands two _ _ _ ih =>
    simp only [List.length_cons, List.length_append, List.length_map]
    omega
  | take load takes _ ih =>
    simp only [List.length_cons]
    omega

namespace Compactor

theorem length_fst_compact_le (c : Compactor) (list : List Instruction) :
    (c.compact list).1.length ≤ list.length := by
  have first := (c.folds_packRuns list).length_le
  have second := (folds_takeLoads (c.packRuns list).written.toList).length_le
  exact second.trans first

theorem normal_fst_compact (c : Compactor) (list : List Instruction) : Normal (c.compact list).1 :=
  normal_takeLoads (c.isChain_packRuns list)

theorem fst_compact_of_normal (c : Compactor) {list : List Instruction} (h : Normal list) :
    (c.compact list).1 = list := by
  have first := c.packRuns_of_parted h.parted
  exact (congrArg takeLoads first).trans (takeLoads_of_kept h.kept)

end Compactor

/-- **Compaction reaches a normal form.** Whatever the compactor was used for, it makes no list longer;
the lists that it leaves as they are, are those in which nothing is left to put together; and one of these
is what it makes of any list, so that another run, with the same compactor or with another one, gives the
same list again. -/
theorem compact_normal (c : Compactor) (list : List Instruction) :
    (c.compact list).1.length ≤ list.length ∧
      ((c.compact list).1 = list ↔ Normal list) ∧
      Normal (c.compact list).1 ∧
      ∀ c' : Compactor, (c'.compact (c.compact list).1).1 = (c.compact list).1 := by
  have normal := c.normal_fst_compact list
  refine ⟨c.length_fst_compact_le list, ⟨fun same => ?_, c.fst_compact_of_normal⟩, normal, fun c' => ?_⟩
  · rw [← same]
    exact normal
  · exact c'.fst_compact_of_normal normal

/-- Seven integers and an operator: the first four of 8 bits are packed, the fifth is left over before two of
16 bits, which the operator takes over. Nothing is left to put together, though the list begins with
two loads. -/
example : compact [.int 1, .int (-2), .int 3, .int 4, .int 5, .int 300, .int (-300),
      .plain (.draw .rlineto)] =
    [.withValue (.load .fourBytes) 33424132, .int 5, ⟨.draw .rlineto, .shorts, 19726036⟩] := by
  decide +kernel

end CompactFont.Charstring
