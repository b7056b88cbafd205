import CompactFont.Proofs.Charstring.Spelling

/-!
# Instructions that stay

Decoding does not only add instructions at the end: the width is written over a load that was made
before, and a call takes back the load of its operand. Neither reaches further back than the
operands that wait, or the latest instruction. So what was made before the operands that wait stays
as it is, unless it ends with the load of an integer (`Progress.invariant_begins`).
-/

namespace CompactFont.Charstring

namespace Progress

/-- The instructions begin with those of `front`, and all operands that wait come after them. -/
def Begins (front : List Instruction) (p : Progress) : Prop :=
  ∃ later, p.made = later ++ front.reverse ∧ p.pending ≤ later.length

variable {front : List Instruction}

/-- What all tokens but masks keep of the instructions, they keep of those that come after the ones
in front, if these do not end with the load of an integer. -/
theorem MadeStep.behind {R : List Instruction → Nat → Prop} (h : MadeStep R)
    (fixed : ∀ i, front.getLast? = some i → i.isInt = false) :
    MadeStep fun made pending =>
      ∃ later, made = later ++ front.reverse ∧ pending ≤ later.length ∧ R later pending where
  push := by
    rintro made n value ⟨later, rfl, waiting, hr⟩
    exact ⟨value.load :: later, rfl, Nat.succ_le_succ waiting, h.push value hr⟩
  plain := by
    rintro made n op operator ⟨later, rfl, waiting, hr⟩
    exact ⟨.plain op :: later, rfl, Nat.le_succ_of_le waiting, h.plain operator hr⟩
  settle := by
    rintro made n ⟨later, rfl, -, hr⟩
    exact ⟨later, rfl, Nat.zero_le _, h.settle hr⟩
  width := by
    rintro made index n load ⟨later, rfl, waiting, hr⟩
    refine ⟨later.set index (.withValue .width n), List.set_append_left _ _ waiting, ?_, ?_⟩
    · rw [List.length_set]
      exact waiting
    · rw [List.getElem?_append_left waiting] at load
      exact h.width load hr
  pop := by
    rintro made i n int ⟨later, hmade, waiting, hr⟩
    cases later with
    | nil =>
      have last : front.getLast? = some i := by
        rw [← List.head?_reverse, ← List.nil_append front.reverse, ← hmade, List.head?_cons]
      rw [fixed i last] at int
      cases int
    | cons j later =>
      cases hmade
      exact ⟨later, rfl, Nat.sub_le_of_le_add waiting, h.pop int hr⟩
  endchar := by
    rintro made n ⟨later, rfl, waiting, hr⟩
    exact ⟨.plain .endchar :: later, rfl, Nat.le_succ_of_le waiting, h.endchar hr⟩

/-- **Decoding leaves the instructions in front as they are**, all that it made before the operands
that wait, if they do not end with the load of an integer. -/
theorem invariant_begins (fixed : ∀ i, front.getLast? = some i → i.isInt = false) :
    Invariant (Begins front) := by
  have anything : MadeStep fun _ _ => True :=
    ⟨⟨fun _ _ => trivial, fun _ _ => trivial, fun _ => trivial, fun _ _ => trivial,
      fun _ _ => trivial⟩, fun _ => trivial⟩
  have begins : Begins front = fun p => ∃ later, p.made = later ++ front.reverse ∧
      p.pending ≤ later.length ∧ True := by
    funext p
    simp only [Begins, and_true]
  rw [begins]
  refine (anything.behind fixed).invariant ?_
  rintro made n kind bytes ⟨later, rfl, waiting, -⟩
  refine ⟨(maskInstructions kind bytes).reverse ++ later, (List.append_assoc ..).symm, ?_, trivial⟩
  rw [List.length_append]
  exact Nat.le_add_left_of_le waiting

theorem Begins.make {p : Progress} (h : p.Begins front) (i : Instruction) :
    (p.make i).Begins front := by
  obtain ⟨later, made, waiting⟩ := h
  exact ⟨i :: later, congrArg (i :: ·) made, Nat.le_succ_of_le waiting⟩

theorem Begins.instructions {p : Progress} (h : p.Begins front) :
    ∃ later, p.instructions = front ++ later := by
  obtain ⟨later, made, -⟩ := h
  refine ⟨later.reverse, ?_⟩
  rw [Progress.instructions, made, List.reverse_append, List.reverse_reverse]

end Progress

end CompactFont.Charstring
