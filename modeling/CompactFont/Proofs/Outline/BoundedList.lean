import CompactFont.Proofs.Outline.Reuse

/-!
# The stack as a bounded list

What a stack of operands is meant to be is a list that holds at most 50 operands (`BoundedList`). The
stack keeps them in slots, and a slot that is given up keeps its number; that no such number is ever
seen has to be proved.

The operations on a stack are data (`StackOp`), so that any sequence of them can be performed, on a
stack and on a bounded list. The list performs only what makes sense: nothing is taken off an empty
list, and only operands that are there are read. Each operation that the list performs, the stack
performs with the same answer, and its live operands are those of the list again
(`ArgStack.exists_perform`). So it is with sequences, from a new stack and from any other one
(`ArgStack.performAll_empty`).
-/

namespace CompactFont

/-- An operation on a stack of operands. -/
inductive StackOp where
  /-- Pushes an operand. -/
  | push (x : Float32)
  /-- Takes the latest operand off. -/
  | pop
  /-- Reads the operand of a number. -/
  | read (i : Nat)
  /-- Reads all operands. -/
  | all
  /-- Turns the operands round. -/
  | reverse
  /-- Gives up all operands. -/
  | clear

/-- What comes back from an operation. -/
inductive StackAnswer where
  /-- That it is done. -/
  | done
  /-- That it cannot be done. -/
  | refused (fault : FontFault)
  /-- An operand. -/
  | operand (x : Float32)
  /-- Operands. -/
  | operands (xs : List Float32)

namespace StackOp

/-- The operands that the operation brings. -/
def brought : StackOp → List Float32
  | push x => [x]
  | _ => []

/-- Performs operations, the first one first, until one cannot be performed. -/
def performAll {σ : Type} (perform : σ → StackOp → Option (StackAnswer × σ)) :
    σ → List StackOp → Option (List StackAnswer × σ)
  | s, [] => some ([], s)
  | s, op :: ops =>
    match perform s op with
    | some (answer, t) => (performAll perform t ops).map fun (answers, u) => (answer :: answers, u)
    | none => none

section

variable {σ τ : Type} {perform : σ → StackOp → Option (StackAnswer × σ)}
  {perform' : τ → StackOp → Option (StackAnswer × τ)}

theorem performAll_cons {s u : σ} {op : StackOp} {ops : List StackOp} {answers : List StackAnswer}
    (h : performAll perform s (op :: ops) = some (answers, u)) :
    ∃ (answer : StackAnswer) (t : σ) (others : List StackAnswer),
      perform s op = some (answer, t) ∧ performAll perform t ops = some (others, u) ∧
        answers = answer :: others := by
  rw [performAll] at h
  split at h
  case h_1 answer t first =>
    simp only [Option.map_eq_some_iff, Prod.exists, Prod.mk.injEq] at h
    obtain ⟨others, _, onward, rfl, rfl⟩ := h
    exact ⟨answer, t, others, first, onward, rfl⟩
  case h_2 => cases h

/-- If each operation leads from states that match to states that match, with one answer, then so do
sequences of operations. -/
theorem exists_performAll (Match : σ → τ → Prop)
    (step : ∀ {s : σ} {t t' : τ} {op : StackOp} {answer : StackAnswer}, Match s t →
      perform' t op = some (answer, t') → ∃ s', perform s op = some (answer, s') ∧ Match s' t')
    {s : σ} {t t' : τ} (matching : Match s t) {ops : List StackOp} {answers : List StackAnswer}
    (h : performAll perform' t ops = some (answers, t')) :
    ∃ s', performAll perform s ops = some (answers, s') ∧ Match s' t' := by
  induction ops generalizing s t answers with
  | nil =>
    cases h
    exact ⟨s, rfl, matching⟩
  | cons op ops ih =>
    obtain ⟨answer, t₁, others, first, onward, rfl⟩ := performAll_cons h
    obtain ⟨s₁, first', matching₁⟩ := step matching first
    obtain ⟨s', onward', matching'⟩ := ih matching₁ onward
    refine ⟨s', ?_, matching'⟩
    simp only [performAll, first', onward', Option.map_some]

end

end StackOp

/-- The operands that an answer shows. -/
def StackAnswer.shown : StackAnswer → List Float32
  | operand x => [x]
  | operands xs => xs
  | _ => []

/-! ### The list that is meant -/

/-- Operands, no more than a stack has slots. -/
@[ext] structure BoundedList where
  /-- The operands, the first one that was pushed first. -/
  toList : List Float32
  /-- There are slots for them. -/
  length_le : toList.length ≤ ArgStack.capacity

namespace BoundedList

/-- The list without operands. -/
def empty : BoundedList := ⟨[], Nat.zero_le _⟩

/-- Performs an operation: `pop` and `read` only if the operand that they are about is there. -/
def perform (l : BoundedList) : StackOp → Option (StackAnswer × BoundedList)
  | .push x =>
    if room : l.toList.length < ArgStack.capacity then
      some (.done, ⟨l.toList ++ [x], by rw [List.length_append]; exact room⟩)
    else some (.refused .tooManyOperands, l)
  | .pop =>
    l.toList.getLast?.map fun x =>
      (.operand x, ⟨l.toList.dropLast, by have := l.length_le; rw [List.length_dropLast]; omega⟩)
  | .read i => l.toList[i]?.map fun x => (.operand x, l)
  | .all => some (.operands l.toList, l)
  | .reverse => some (.done, ⟨l.toList.reverse, by rw [List.length_reverse]; exact l.length_le⟩)
  | .clear => some (.done, empty)

/-- Just two things make no sense: to take off what is not there, and to read it. -/
theorem perform_eq_none_iff {l : BoundedList} {op : StackOp} :
    l.perform op = none ↔ op = .pop ∧ l.toList = [] ∨ ∃ i, op = .read i ∧ l.toList.length ≤ i := by
  cases op with
  | push x =>
    simp only [perform]
    split <;> simp
  | pop => simp [perform]
  | read i => simp [perform]
  | all => simp [perform]
  | reverse => simp [perform]
  | clear => simp [perform]

/-- Performs operations, the first one first. -/
def performAll : BoundedList → List StackOp → Option (List StackAnswer × BoundedList) :=
  StackOp.performAll perform

/-- What an operation shows or leaves behind was there before it, or is brought by it. -/
theorem mem_of_perform {l m : BoundedList} {op : StackOp} {answer : StackAnswer}
    (h : l.perform op = some (answer, m)) {x : Float32} (hx : x ∈ answer.shown ∨ x ∈ m.toList) :
    x ∈ l.toList ∨ x ∈ op.brought := by
  cases op with
  | push y =>
    simp only [perform] at h
    split at h <;> cases h
    · simpa [StackAnswer.shown, StackOp.brought] using hx
    · exact .inl (by simpa [StackAnswer.shown] using hx)
  | pop =>
    obtain ⟨y, last, same⟩ := Option.map_eq_some_iff.mp h
    cases same
    refine .inl ?_
    rcases hx with hx | hx
    · obtain rfl : x = y := by simpa [StackAnswer.shown] using hx
      exact List.mem_of_getLast? last
    · exact List.dropLast_subset _ hx
  | read i =>
    obtain ⟨y, slot, same⟩ := Option.map_eq_some_iff.mp h
    cases same
    refine .inl ?_
    rcases hx with hx | hx
    · obtain rfl : x = y := by simpa [StackAnswer.shown] using hx
      exact List.mem_of_getElem? slot
    · exact hx
  | all =>
    cases h
    exact .inl (by simpa [StackAnswer.shown] using hx)
  | reverse =>
    cases h
    exact .inl (by simpa [StackAnswer.shown] using hx)
  | clear =>
    cases h
    simp [StackAnswer.shown, empty] at hx

/-- What operations show was there before them, or is brought by them. -/
theorem mem_of_performAll {l m : BoundedList} {ops : List StackOp} {answers : List StackAnswer}
    (h : l.performAll ops = some (answers, m)) {x : Float32} (hx : x ∈ answers.flatMap (·.shown)) :
    x ∈ l.toList ∨ x ∈ ops.flatMap (·.brought) := by
  induction ops generalizing l answers with
  | nil =>
    cases h
    simp at hx
  | cons op ops ih =>
    obtain ⟨answer, k, others, first, onward, rfl⟩ := StackOp.performAll_cons h
    simp only [List.flatMap_cons, List.mem_append] at hx ⊢
    have here : x ∈ answer.shown ∨ x ∈ k.toList → x ∈ l.toList ∨ x ∈ op.brought :=
      mem_of_perform first
    rcases hx with hx | hx
    · exact (here (.inl hx)).imp_right .inl
    · rcases ih onward hx with hx | hx
      · exact (here (.inr hx)).imp_right .inl
      · exact .inr (.inr hx)

end BoundedList

namespace ArgStack

/-- Performs an operation. Whether an operand is live is not looked at when it is read. -/
def perform (s : ArgStack) : StackOp → Option (StackAnswer × ArgStack)
  | .push x =>
    match s.push x with
    | .ok t => some (.done, t)
    | .error fault => some (.refused fault, s)
  | .pop => s.pop?.map fun (x, t) => (.operand x, t)
  | .read i => (s.at? i).map fun x => (.operand x, s)
  | .all => some (.operands s.toList, s)
  | .reverse => some (.done, s.reverse)
  | .clear => some (.done, s.clear)

/-- Performs operations, the first one first. -/
def performAll : ArgStack → List StackOp → Option (List StackAnswer × ArgStack) :=
  StackOp.performAll perform

/-- The list that the stack is meant to be. -/
def bounded (s : ArgStack) : BoundedList :=
  ⟨s.toList, by rw [length_toList]; exact s.depth_le⟩

/-- A full stack refuses every operand, and stays as it is. -/
theorem perform_push_of_full {s : ArgStack} (full : s.toList.length = capacity) (x : Float32) :
    s.perform (.push x) = some (.refused .tooManyOperands, s) := by
  have refused : s.push x = .error .tooManyOperands := by
    apply dif_neg
    rw [← length_toList]
    omega
  simp only [perform, refused]

/-- What the list performs, the stack performs too, and with the same answer. -/
theorem exists_perform {s : ArgStack} {l m : BoundedList} {op : StackOp} {answer : StackAnswer}
    (hs : s.bounded = l) (h : l.perform op = some (answer, m)) :
    ∃ t : ArgStack, s.perform op = some (answer, t) ∧ t.bounded = m := by
  subst hs
  cases op with
  | push x =>
    simp only [BoundedList.perform] at h
    split at h
    case isTrue room =>
      cases h
      obtain ⟨t, ht⟩ : ∃ t, s.push x = .ok t := ⟨_, dif_pos (by simpa [bounded] using room)⟩
      exact ⟨t, by simp only [perform, ht], BoundedList.ext (toList_push ht)⟩
    case isFalse full =>
      cases h
      have hle := s.bounded.length_le
      exact ⟨s, perform_push_of_full (by change s.bounded.toList.length = _; omega) x, rfl⟩
  | pop =>
    obtain ⟨x, last, same⟩ := Option.map_eq_some_iff.mp h
    cases same
    obtain ⟨xs, split⟩ := List.getLast?_eq_some_iff.mp last
    obtain ⟨t, taken, left⟩ := exists_pop? split
    refine ⟨t, by simp only [perform, taken, Option.map_some], BoundedList.ext ?_⟩
    change t.toList = s.bounded.toList.dropLast
    rw [split, List.dropLast_concat, left]
  | read i =>
    obtain ⟨x, slot, same⟩ := Option.map_eq_some_iff.mp h
    cases same
    have live : i < s.depth := by
      rw [← length_toList]
      exact (List.getElem?_eq_some_iff.mp slot).1
    have slot : s.at? i = some x := (at?_eq live).trans slot
    exact ⟨s, by simp only [perform, slot, Option.map_some], rfl⟩
  | all =>
    cases h
    exact ⟨s, rfl, rfl⟩
  | reverse =>
    cases h
    exact ⟨s.reverse, rfl, BoundedList.ext s.toList_reverse⟩
  | clear =>
    cases h
    exact ⟨s.clear, rfl, rfl⟩

theorem exists_performAll {s : ArgStack} {l m : BoundedList} (hs : s.bounded = l)
    {ops : List StackOp} {answers : List StackAnswer} (h : l.performAll ops = some (answers, m)) :
    ∃ t : ArgStack, s.performAll ops = some (answers, t) ∧ t.bounded = m := by
  apply StackOp.exists_performAll (fun (s : ArgStack) l => s.bounded = l) _ hs h
  intro s l m op answer
  exact exists_perform

/-- Any operations that a bounded list performs, a new stack performs with the same answers, and then
it has the operands of the list. If there are 50 of them, another one is refused and nothing changes.
What is answered later comes from these operands and those that are pushed later, and it is the same
for all stacks with these live operands, so nothing that was removed before is seen again. -/
theorem performAll_empty {ops : List StackOp} {answers : List StackAnswer} {l : BoundedList}
    (h : BoundedList.empty.performAll ops = some (answers, l)) :
    ∃ s : ArgStack, empty.performAll ops = some (answers, s) ∧ s.toList = l.toList ∧
      (s.toList.length = capacity →
        ∀ x, s.perform (.push x) = some (.refused .tooManyOperands, s)) ∧
      ∀ (later : List StackOp) (answers' : List StackAnswer) (m : BoundedList),
        l.performAll later = some (answers', m) →
          (∀ t : ArgStack, t.toList = s.toList →
            ∃ u : ArgStack, t.performAll later = some (answers', u) ∧ u.toList = m.toList) ∧
          ∀ x ∈ answers'.flatMap (·.shown), x ∈ s.toList ∨ x ∈ later.flatMap (·.brought) := by
  obtain ⟨s, performed, rfl⟩ := exists_performAll (s := empty) rfl h
  refine ⟨s, performed, rfl, perform_push_of_full, ?_⟩
  intro later answers' m onward
  constructor
  · intro t same
    have same : t.bounded = s.bounded := BoundedList.ext same
    obtain ⟨u, performed', left⟩ := exists_performAll same onward
    exact ⟨u, performed', congrArg BoundedList.toList left⟩
  · intro x hx
    exact BoundedList.mem_of_performAll onward hx

/-- Three operands are turned round and one is taken off, which the slots still hold; whatever the
slots hold, it is not among the operands that are taken off and read then. -/
theorem performAll_empty_turned :
    ∃ s : ArgStack,
      empty.performAll [.push 1, .push 2, .push 3, .reverse, .pop, .read 1] =
        some ([.done, .done, .done, .done, .operand 1, .operand 2], s) ∧
      s.toList = [3, 2] ∧
      ∀ t : ArgStack, t.toList = s.toList →
        ∃ u : ArgStack,
          t.performAll [.push 4, .pop, .all, .clear] =
            some ([.done, .operand 4, .operands [3, 2], .done], u) ∧
          u.toList = [] := by
  have performs :
      BoundedList.empty.performAll [.push 1, .push 2, .push 3, .reverse, .pop, .read 1] =
        some ([.done, .done, .done, .done, .operand 1, .operand 2], ⟨[3, 2], by decide⟩) := rfl
  obtain ⟨s, performed, left, -, onward⟩ := performAll_empty performs
  refine ⟨s, performed, left, ?_⟩
  exact (onward [.push 4, .pop, .all, .clear]
    [.done, .operand 4, .operands [3, 2], .done] .empty rfl).1

end ArgStack

end CompactFont
