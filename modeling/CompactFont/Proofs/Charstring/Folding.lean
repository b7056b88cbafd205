import CompactFont.Proofs.Charstring.Instruction
import CompactFont.Proofs.Charstring.Packing

/-!
# Compaction as folding

What compaction does to a list is said here once, without its buffers and loops: `Folds list short`
holds when `short` comes from `list` by keeping instructions, by packing loads of single integers
into one load, and by having an instruction take over the load before it. Both passes fold what they
are given (`Compactor.folds_packRuns`, `folds_takeLoads`); whatever folding keeps, compaction keeps.

The first pass works with integers that are collected and not written yet. Its invariant is that the
instructions written so far, with loads for the collected integers after them, stand for what was
read so far (`Compactor.Advances`).
-/

namespace CompactFont.Charstring

/-- `Folds list short`: the second list is the first one with some loads put together. -/
inductive Folds : List Instruction → List Instruction → Prop where
  /-- Nothing is left. -/
  | nil : Folds [] []
  /-- An instruction is kept. -/
  | keep (i : Instruction) {list short : List Instruction} :
      Folds list short → Folds (i :: list) (i :: short)
  /-- Loads of single integers of one size are packed into one load, as many as it holds at most. -/
  | pack {i : Instruction} {ns : List Int32} {s : Narrow} {list short : List Instruction}
      (taken : i.taken = .nothing) (operands : i.packedOperands = ns) (two : 2 ≤ ns.length)
      (sized : ∀ n ∈ ns, Narrow.of? n = some s) (room : ns.length ≤ s.capacity) :
      Folds list short → Folds (ns.map .int ++ list) (i :: short)
  /-- An instruction takes over the load before it. -/
  | take {i j : Instruction} {taken : Taken} {list short : List Instruction}
      (load : i.takeable? = some taken) (takes : j.takes = true) :
      Folds list short → Folds (i :: j :: list) (⟨j.op, taken, i.value⟩ :: short)

namespace Folds

/-- The load of a run folds the loads of its integers. -/
theorem packed {s : Narrow} {run : List Int32} {list short : List Instruction}
    (sized : ∀ n ∈ run, Narrow.of? n = some s) (room : run.length ≤ s.capacity)
    (h : Folds list short) : Folds (run.map .int ++ list) (Charstring.packed run ++ short) := by
  match run, sized, room with
  | [], _, _ => exact h
  | [a], _, _ => exact keep (.int a) h
  | a :: b :: run, sized, room =>
    obtain ⟨i, hi, taken, operands⟩ := packedOperands_of_packed sized room
    rw [hi]
    exact pack taken operands (by simp) sized room h

end Folds

/-! ### The first pass -/

namespace Compactor

/-- The collected integers are of the size that is noted, and there is room for another one. -/
def Sound (c : Compactor) : Prop :=
  match c.size with
  | none => c.run = []
  | some s => (∀ n ∈ c.run, Narrow.of? n = some s) ∧ c.run.length < s.capacity

/-- `c.Advances read c'`: the compactor `c` becomes `c'` when it has read the list `read`. What it
has written then, with the integers that are still collected, folds the list. -/
def Advances (c : Compactor) (read : List Instruction) (c' : Compactor) : Prop :=
  ∃ front, c'.written.toList = c.written.toList ++ front ∧
    ∀ list short, Folds (c'.run.map .int ++ list) short →
      Folds (c.run.map .int ++ (read ++ list)) (front ++ short)

theorem Advances.refl (c : Compactor) : c.Advances [] c := ⟨[], by simp, fun _ _ h => h⟩

theorem Advances.trans {c c' c'' : Compactor} {read read' : List Instruction}
    (h : c.Advances read c') (h' : c'.Advances read' c'') : c.Advances (read ++ read') c'' := by
  obtain ⟨front, hw, hf⟩ := h
  obtain ⟨front', hw', hf'⟩ := h'
  refine ⟨front ++ front', by rw [hw', hw, List.append_assoc], fun list short hs => ?_⟩
  rw [List.append_assoc, List.append_assoc]
  exact hf _ _ (hf' _ _ hs)

theorem sound_new : new.Sound := rfl

/-- The integers that are collected can be written at any time, also when there is no room left. -/
theorem advances_writeRun {c : Compactor} (empty : c.size = none → c.run = [])
    (sized : ∀ s, c.size = some s →
      (∀ n ∈ c.run, Narrow.of? n = some s) ∧ c.run.length ≤ s.capacity) :
    c.Advances [] c.writeRun := by
  refine ⟨packed c.run, by simp [writeRun], fun list short h => ?_⟩
  cases hc : c.size with
  | none => rw [empty hc]; exact h
  | some s => exact Folds.packed (sized s hc).1 (sized s hc).2 h

theorem Sound.advances_writeRun {c : Compactor} (h : c.Sound) : c.Advances [] c.writeRun := by
  refine Compactor.advances_writeRun (fun hc => ?_) (fun s hc => ?_)
  · simpa only [Sound, hc] using h
  · simp only [Sound, hc] at h
    exact ⟨h.1, Nat.le_of_lt h.2⟩

theorem Sound.write {c : Compactor} (h : c.Sound) (i : Instruction) :
    (c.write i).Sound ∧ c.Advances [i] (c.write i) := by
  have written : c.writeRun.Advances [i] (c.write i) :=
    ⟨[i], by simp [Compactor.write], fun list short hs => Folds.keep i hs⟩
  exact ⟨rfl, h.advances_writeRun.trans written⟩

/-- An integer of a size joins integers of the same size, as long as there is room. -/
theorem Sound.collect {c : Compactor} (h : c.Sound) {s : Narrow} {n : Int32}
    (hn : Narrow.of? n = some s) :
    (c.collect s n).Sound ∧ c.Advances [.int n] (c.collect s n) := by
  -- what is collected before the integer joins it is of its size, or else is written first
  obtain ⟨d, hd, sized, room, before⟩ : ∃ d, (if c.size = some s then c else c.writeRun) = d ∧
      (∀ m ∈ d.run, Narrow.of? m = some s) ∧ d.run.length < s.capacity ∧ c.Advances [] d := by
    by_cases hs : c.size = some s
    · simp only [Sound, hs] at h
      exact ⟨c, if_pos hs, h.1, h.2, .refl c⟩
    · refine ⟨c.writeRun, if_neg hs, ?_, ?_, h.advances_writeRun⟩
      · intro m hm
        cases hm
      · change 0 < s.capacity
        cases s <;> decide
  have sized' : ∀ m ∈ d.run ++ [n], Narrow.of? m = some s := by
    intro m hm
    rcases List.mem_append.mp hm with hm | hm
    · exact sized m hm
    · rw [List.mem_singleton.mp hm]; exact hn
  have room' : (d.run ++ [n]).length ≤ s.capacity := by
    rw [List.length_append, List.length_singleton]
    exact room
  have joined : d.Advances [.int n] { d with run := d.run ++ [n], size := some s } :=
    ⟨[], by simp, fun list short hs => by simpa using hs⟩
  simp only [Compactor.collect, hd]
  split
  · refine ⟨rfl, (before.trans joined).trans ?_⟩
    refine Compactor.advances_writeRun (fun hc => ?_) fun s' hc => ?_
    · cases hc
    · cases hc
      exact ⟨sized', room'⟩
  · rename_i full
    exact ⟨⟨sized', Nat.lt_of_le_of_ne room' full⟩, before.trans joined⟩

/-- One step of the first pass. -/
theorem Sound.feed {c : Compactor} (h : c.Sound) (i : Instruction) :
    (c.feed i).Sound ∧ c.Advances [i] (c.feed i) := by
  unfold Compactor.feed
  split
  · rename_i hi
    split
    · rename_i s hs
      have := h.collect hs
      rwa [← Instruction.eq_int_of_isInt hi] at this
    · exact h.write i
  · exact h.write i

/-- All steps of the first pass. -/
theorem Sound.foldl_feed {c : Compactor} (h : c.Sound) (list : List Instruction) :
    (list.foldl Compactor.feed c).Sound ∧ c.Advances list (list.foldl Compactor.feed c) := by
  induction list generalizing c with
  | nil => exact ⟨h, .refl c⟩
  | cons i list ih =>
    obtain ⟨sound, step⟩ := h.feed i
    obtain ⟨sound', rest⟩ := ih sound
    exact ⟨sound', step.trans rest⟩

/-- **The first pass** folds its list, whatever the compactor was used for before. -/
theorem folds_packRuns (c : Compactor) (list : List Instruction) :
    Folds list (c.packRuns list).written.toList := by
  obtain ⟨sound, pass⟩ := sound_new.foldl_feed list
  obtain ⟨front, written, folds⟩ := pass.trans sound.advances_writeRun
  have := folds [] [] .nil
  simp only [new, List.map_nil, List.nil_append, List.append_nil] at this
  rw [packRuns, clear, written]
  exact this

end Compactor

/-! ### The second pass -/

/-- **The second pass** folds its list. -/
theorem folds_takeLoads (list : List Instruction) : Folds list (takeLoads list) := by
  fun_induction takeLoads list with
  | case1 => exact .nil
  | case2 i => exact .keep i .nil
  | case3 i j rest taken load takes ih => exact .take load takes ih
  | case4 i j rest taken load takes ih => exact .keep i ih
  | case5 i j rest load ih => exact .keep i ih

end CompactFont.Charstring
