import CompactFont.Proofs.Charstring.NormalForm
import CompactFont.Proofs.Charstring.Decoded
import Mathlib.Data.List.Basic

/-!
# The width in front

The width of a glyph is looked up in the first instruction of its list. Compaction does not change what
is found there, but for one case: a width that is zero takes over the load before it, as any operation
without a value would. If the loads in front of such a width are packed into one load, and that load can
be taken over, the width is the first instruction of the compacted list, with their value
(`Compactor.leadingWidth?_fst_compact`). Which loads these are is said by their number and the sizes of
their integers alone (`TakenTogether`).

What is in front of the first instruction that is no load of an integer is packed by itself, whatever
follows (`Compactor.exists_packRuns_append_cons`).
-/

namespace CompactFont.Charstring

/-- The value of the first instruction, if that is a width. -/
def leadingWidth? : List Instruction → Option Int32
  | i :: _ => if i.op = .width then some i.value else none
  | [] => none

/-- The loads of these integers are packed into one load that can be taken over: there is one integer, or
there are two of one size or four of 8 bits. -/
def TakenTogether (ns : List Int32) : Prop :=
  ns.length = 1 ∨ ns.length = 2 ∧ (∃ size, ∀ n ∈ ns, Narrow.of? n = some size) ∨
    ns.length = 4 ∧ ∀ n ∈ ns, Narrow.of? n = some .byte

/-- Loads of integers that are taken over together stand in front of a width that is zero. -/
def LoadsBeforeWidth (list : List Instruction) : Prop :=
  ∃ (ns : List Int32) (rest : List Instruction),
    list = ns.map .int ++ .plain .width :: rest ∧ TakenTogether ns

theorem leadingWidth?_of_isLoad {i : Instruction} (h : i.op.isLoad = true) (list : List Instruction) :
    leadingWidth? (i :: list) = none := by
  have other : i.op ≠ .width := by
    intro width
    rw [width] at h
    cases h
  exact if_neg other

theorem leadingWidth?_of_loads {list : List Instruction} (h : ∀ i ∈ list, i.op.isLoad = true) :
    leadingWidth? list = none := by
  cases list with
  | nil => rfl
  | cons i list => exact leadingWidth?_of_isLoad (h i List.mem_cons_self) list

/-- A list starts with loads of integers, as many as there are. -/
theorem exists_ints_append (list : List Instruction) :
    ∃ (ns : List Int32) (tail : List Instruction),
      list = ns.map .int ++ tail ∧ ∀ j ∈ tail.head?, j.isInt = false := by
  induction list with
  | nil => exact ⟨[], [], rfl, fun j hj => by cases hj⟩
  | cons i list ih =>
    cases hi : i.isInt with
    | false =>
      refine ⟨[], i :: list, rfl, fun j hj => ?_⟩
      cases hj
      exact hi
    | true =>
      obtain ⟨ns, tail, rfl, other⟩ := ih
      refine ⟨i.value :: ns, tail, ?_, other⟩
      rw [List.map_cons, ← Instruction.eq_int_of_isInt hi]
      rfl

/-! ### The first pass -/

/-- What packs operands is a load. -/
theorem Instruction.isLoad_of_packedOperands {i : Instruction} (h : i.packedOperands ≠ []) :
    i.op.isLoad = true := by
  unfold Instruction.packedOperands at h
  split at h
  case h_4 => exact absurd rfl h
  all_goals
    rename_i op
    rw [op]
    rfl

/-- Loads are folded to loads. -/
theorem Folds.isLoad {list short : List Instruction} (h : Folds list short)
    (loads : ∀ i ∈ list, i.op.isLoad = true) : ∀ i ∈ short, i.op.isLoad = true := by
  induction h with
  | nil => exact loads
  | keep i _ ih =>
    obtain ⟨load, loads⟩ := List.forall_mem_cons.mp loads
    exact List.forall_mem_cons.mpr ⟨load, ih loads⟩
  | @pack i ns s list short taken operands two _ _ _ ih =>
    refine List.forall_mem_cons.mpr ⟨Instruction.isLoad_of_packedOperands ?_, ih ?_⟩
    · rw [operands]
      exact List.ne_nil_of_length_pos (by omega)
    · exact fun j hj => loads j (List.mem_append_right _ hj)
  | @take i j taken list short load takes _ _ =>
    obtain ⟨op, rfl, notLoad, -⟩ := Instruction.takes_eq_true takes
    have load : op.isLoad = true := loads (.plain op) (List.mem_cons_of_mem _ List.mem_cons_self)
    exact absurd load (by rw [notLoad]; exact Bool.false_ne_true)

theorem Folds.eq_nil {list : List Instruction} (h : Folds list []) : list = [] := by
  cases h
  rfl

theorem Instruction.takes_of_isLoad {i : Instruction} (h : i.op.isLoad = true) : i.takes = false := by
  simp [Instruction.takes, h]

namespace Compactor

theorem isLoad_packRuns_ints (c : Compactor) (ns : List Int32) :
    ∀ i ∈ (c.packRuns (ns.map .int)).written.toList, i.op.isLoad = true := by
  refine (c.folds_packRuns _).isLoad fun i hi => ?_
  obtain ⟨n, -, rfl⟩ := List.mem_map.mp hi
  rfl

/-- Loads are not taken over by loads. -/
theorem fst_compact_ints (c : Compactor) (ns : List Int32) :
    (c.compact (ns.map .int)).1 = (c.packRuns (ns.map .int)).written.toList := by
  refine takeLoads_of_kept (List.Pairwise.isChain ?_)
  refine List.pairwise_of_forall_mem_list fun i _ j hj takesOver => ?_
  exact Bool.false_ne_true
    ((Instruction.takes_of_isLoad (c.isLoad_packRuns_ints ns j hj)).symm.trans takesOver.2)

/-- One load that can be taken over holds one integer, or two of one size, or four of 8 bits. -/
theorem takenTogether_of_folds {ns : List Int32} {i : Instruction} (h : Folds (ns.map .int) [i])
    (load : i.takeable? ≠ none) : TakenTogether ns := by
  generalize same : ns.map Instruction.int = list at h
  cases h with
  | keep i h =>
    rw [h.eq_nil] at same
    exact .inl (by rw [← List.length_map, same]; rfl)
  | @pack i ms size list short taken operands two sized room h =>
    rw [h.eq_nil, List.append_nil] at same
    obtain rfl : ns = ms := List.map_injective_iff.mpr (fun a b eq => congrArg Instruction.value eq) same
    obtain ⟨taken, load⟩ := Option.ne_none_iff_exists'.mp load
    rcases Instruction.takeable?_eq_some load with ⟨int, -⟩ | ⟨shorts, -⟩ | ⟨four, -⟩
    · rw [int] at operands
      rw [← operands] at two
      exact absurd two (Nat.not_succ_le_zero 1)
    · rw [shorts] at operands
      exact .inr (.inl ⟨by rw [← operands]; rfl, size, sized⟩)
    · rw [four] at operands
      have length : ns.length = 4 := by rw [← operands]; rfl
      rw [length] at room
      obtain rfl : size = .byte := by
        cases size with
        | byte => rfl
        | short => exact absurd room (by decide)
      exact .inr (.inr ⟨length, sized⟩)
  | @take i j taken list short load' takes h =>
    refine absurd (Instruction.takeable?_of_taken ?_) load
    rcases Instruction.takeable?_eq_some load' with ⟨-, rfl⟩ | ⟨-, rfl⟩ | ⟨-, rfl⟩
    all_goals exact fun none => by cases none

/-- Integers that are taken over together are packed into one load. -/
theorem exists_packRuns_of_takenTogether (c : Compactor) {ns : List Int32} (h : TakenTogether ns) :
    ∃ i, (c.packRuns (ns.map .int)).written.toList = [i] ∧ i.takeable? ≠ none := by
  rcases h with single | ⟨two, size, sized⟩ | ⟨four, sized⟩
  · obtain ⟨n, rfl⟩ := List.length_eq_one_iff.mp single
    exact ⟨.int n, c.packRuns_of_parted (List.isChain_singleton _), Option.some_ne_none _⟩
  · obtain ⟨a, b, rfl⟩ := List.length_eq_two.mp two
    have ha := sized a (by simp)
    have hb := sized b (by simp)
    refine ⟨.withValue (.load .shorts) (packShorts a b), ?_, Option.some_ne_none _⟩
    cases size <;>
      simp [packRuns, clear, new, feed_int, ha, hb, collect, writeRun, Narrow.capacity, packed]
  · obtain ⟨a, b, c', d, rfl⟩ := List.length_eq_four.mp four
    have ha := sized a (by simp)
    have hb := sized b (by simp)
    have hc := sized c' (by simp)
    have hd := sized d (by simp)
    refine ⟨.withValue (.load .fourBytes) (packBytes a b c' d), ?_, Option.some_ne_none _⟩
    simp [packRuns, clear, new, feed_int, ha, hb, hc, hd, collect, writeRun, Narrow.capacity, packed]

/-- What is in front of an instruction that is no load of an integer is packed by itself. -/
theorem exists_packRuns_append_cons (c : Compactor) (front : List Instruction) {j : Instruction}
    (other : j.isInt = false) (rest : List Instruction) :
    ∃ after, (c.packRuns (front ++ j :: rest)).written.toList =
      (c.packRuns front).written.toList ++ j :: after := by
  obtain ⟨sound, -⟩ := sound_new.foldl_feed front
  have fed : (front.foldl Compactor.feed new).feed j = (front.foldl Compactor.feed new).write j := by
    simp only [Compactor.feed, other, Bool.false_eq_true, if_false]
  have written : ((front.foldl Compactor.feed new).write j).written.toList =
      (c.packRuns front).written.toList ++ [j] := by
    rw [packRuns, clear, toList_written_writeRun]
    simp [Compactor.write]
  obtain ⟨soundAfter, pass⟩ := (sound.write j).1.foldl_feed rest
  obtain ⟨after, all, -⟩ := pass.trans soundAfter.advances_writeRun
  refine ⟨after, ?_⟩
  rw [packRuns, clear, List.foldl_append, List.foldl_cons, fed, all, written, List.append_assoc]
  rfl

end Compactor

/-! ### The second pass -/

/-- The compacted list starts with the load in front, or with what has taken it over. -/
theorem leadingWidth?_takeLoads_cons_cons {i j : Instruction} (load : i.op.isLoad = true)
    (rest : List Instruction) : leadingWidth? (takeLoads (i :: j :: rest)) =
      if i.takeable? ≠ none ∧ j.takes = true ∧ j.op = .width then some i.value else none := by
  rw [takeLoads]
  split
  · rename_i taken takeable
    have some : i.takeable? ≠ none := by
      rw [takeable]
      exact Option.some_ne_none taken
    split
    · rename_i takes
      by_cases width : j.op = .width
      · rw [if_pos ⟨some, takes, width⟩]
        exact if_pos width
      · rw [if_neg fun h => width h.2.2]
        exact if_neg width
    · rename_i takes
      rw [if_neg fun h => takes h.2.1]
      exact leadingWidth?_of_isLoad load _
  · rename_i takeable
    rw [if_neg fun h => h.1 takeable]
    exact leadingWidth?_of_isLoad load _

/-- An instruction that cannot be taken over stays in front. -/
theorem leadingWidth?_takeLoads_of_takeable? {i : Instruction} (kept : i.takeable? = none)
    (list list' : List Instruction) :
    leadingWidth? (takeLoads (i :: list)) = leadingWidth? (i :: list') := by
  cases list with
  | nil => rfl
  | cons j list =>
    simp only [takeLoads, kept]
    rfl

/-! ### Both passes -/

/-- An instruction that is not packed can be taken over only if it loads an integer. -/
theorem Instruction.Unpacked.takeable?_eq_none {i : Instruction} (h : i.Unpacked)
    (other : i.isInt = false) : i.takeable? = none := by
  obtain ⟨-, notShorts, notFour, -⟩ := h
  by_contra load
  obtain ⟨taken, load⟩ := Option.ne_none_iff_exists'.mp load
  rcases takeable?_eq_some load with ⟨int, -⟩ | ⟨shorts, -⟩ | ⟨four, -⟩
  · rw [int] at other
    cases other
  · exact notShorts (congrArg op shorts)
  · exact notFour (congrArg op four)

namespace Compactor

variable (c : Compactor)

/-- Loads in front of an operation are packed into one load that it takes over, or into loads of which
the first stays in front. -/
theorem leadingWidth?_fst_compact_ints_append {ns : List Int32} (some : ns ≠ []) {j : Instruction}
    (other : j.isInt = false) (rest : List Instruction) :
    leadingWidth? (c.compact (ns.map .int ++ j :: rest)).1 = none ∨
      LoadsBeforeWidth (ns.map .int ++ j :: rest) := by
  have loads := c.isLoad_packRuns_ints ns
  have folds := c.folds_packRuns (ns.map .int)
  obtain ⟨after, packed⟩ := c.exists_packRuns_append_cons (ns.map .int) other rest
  change leadingWidth? (takeLoads (c.packRuns (ns.map .int ++ j :: rest)).written.toList) = none ∨ _
  rw [packed]
  generalize (c.packRuns (ns.map .int)).written.toList = front at loads folds
  cases front with
  | nil => exact absurd (List.map_eq_nil_iff.mp folds.eq_nil) some
  | cons i front =>
    obtain ⟨load, loads⟩ := List.forall_mem_cons.mp loads
    cases front with
    | nil =>
      by_cases late : i.takeable? ≠ none ∧ j.takes = true ∧ j.op = .width
      · obtain ⟨takeable, takes, width⟩ := late
        obtain ⟨op, rfl, -⟩ := Instruction.takes_eq_true takes
        cases width
        exact .inr ⟨ns, rest, rfl, takenTogether_of_folds folds takeable⟩
      · exact .inl ((leadingWidth?_takeLoads_cons_cons load after).trans (if_neg late))
    | cons i' front =>
      have stays : i'.takes = false := Instruction.takes_of_isLoad (loads i' List.mem_cons_self)
      refine .inl ((leadingWidth?_takeLoads_cons_cons load _).trans (if_neg fun late => ?_))
      exact Bool.false_ne_true (stays.symm.trans late.2.1)

/-- The width that takes over the loads in front of it is the first instruction of the compacted list. -/
theorem leadingWidth?_fst_compact_of_late {list : List Instruction} (late : LoadsBeforeWidth list) :
    leadingWidth? (c.compact list).1 ≠ leadingWidth? list := by
  obtain ⟨ns, rest, rfl, together⟩ := late
  obtain ⟨i, front, takeable⟩ := c.exists_packRuns_of_takenTogether together
  have load : i.op.isLoad = true := c.isLoad_packRuns_ints ns i (by simp [front])
  obtain ⟨after, packed⟩ :=
    c.exists_packRuns_append_cons (ns.map .int) (j := .plain .width) rfl rest
  rw [front] at packed
  have compacted : leadingWidth? (c.compact (ns.map .int ++ .plain .width :: rest)).1 =
      some i.value := by
    change leadingWidth? (takeLoads (c.packRuns _).written.toList) = _
    rw [packed]
    exact (leadingWidth?_takeLoads_cons_cons load after).trans (if_pos ⟨takeable, rfl, rfl⟩)
  cases ns with
  | nil => cases front
  | cons n ns =>
    have notInFront : leadingWidth? ((n :: ns).map .int ++ .plain .width :: rest) = none :=
      leadingWidth?_of_isLoad rfl _
    rw [compacted, notInFront]
    exact Option.some_ne_none _

/-- **The width in front**: compaction does not change it, unless it is zero and takes over the loads
before it. -/
theorem leadingWidth?_fst_compact {list : List Instruction} (unpacked : ∀ i ∈ list, i.Unpacked) :
    leadingWidth? (c.compact list).1 = leadingWidth? list ↔ ¬LoadsBeforeWidth list := by
  refine ⟨fun same late => c.leadingWidth?_fst_compact_of_late late same, fun notLate => ?_⟩
  obtain ⟨ns, tail, rfl, other⟩ := exists_ints_append list
  cases ns with
  | nil =>
    cases tail with
    | nil => rfl
    | cons j rest =>
      have kept : j.takeable? = none :=
        (unpacked j List.mem_cons_self).takeable?_eq_none (other j rfl)
      obtain ⟨after, packed⟩ := c.exists_packRuns_append_cons [] (other j rfl) rest
      change leadingWidth? (takeLoads (c.packRuns ([] ++ j :: rest)).written.toList) = _
      rw [packed]
      exact leadingWidth?_takeLoads_of_takeable? kept after rest
  | cons n ns =>
    have notInFront : leadingWidth? ((n :: ns).map .int ++ tail) = none :=
      leadingWidth?_of_isLoad rfl _
    rw [notInFront]
    cases tail with
    | nil =>
      rw [List.append_nil, c.fst_compact_ints]
      exact leadingWidth?_of_loads (c.isLoad_packRuns_ints (n :: ns))
    | cons j rest =>
      exact (c.leadingWidth?_fst_compact_ints_append (List.cons_ne_nil n ns) (other j rfl)
        rest).resolve_right notLate

end Compactor

end CompactFont.Charstring
