import CompactFont.Proofs.Charstring.Spelling

/-!
# The width of the first operator

The width is the first operand of the first operator that clears the stack. Decoding looks for it
until a stem hint was found or the path was entered.

* While only operands were pushed, the first of them is the first instruction, and the width takes
  its place (`Progress.Fresh`, `Progress.Fresh.clear`).
* Once a stem hint was found or the path was entered, no width is made any more (`Progress.Closed`,
  `Progress.invariant_closed`).
-/

namespace CompactFont.Charstring

/-- The instruction tells the width. -/
def Instruction.isWidth (i : Instruction) : Bool := i.op = .width

/-- None of the instructions tells the width. -/
def Widthless (list : List Instruction) : Prop := ∀ i ∈ list, i.isWidth = false

theorem widthless_nil : Widthless [] := List.forall_mem_nil _

theorem Widthless.cons {i : Instruction} {list : List Instruction} (hi : i.isWidth = false)
    (h : Widthless list) : Widthless (i :: list) := List.forall_mem_cons.mpr ⟨hi, h⟩

theorem Widthless.append {list list' : List Instruction} (h : Widthless list)
    (h' : Widthless list') : Widthless (list ++ list') := List.forall_mem_append.mpr ⟨h, h'⟩

theorem Operand.isWidth_load (value : Operand) : value.load.isWidth = false := by
  cases value <;> rfl

theorem widthless_maskInstructions (kind : MaskKind) (bytes : List UInt8) :
    Widthless (Progress.maskInstructions kind bytes).reverse := by
  intro i hi
  have hi := List.mem_reverse.mp hi
  unfold Progress.maskInstructions at hi
  split at hi
  · rcases List.mem_append.mp hi with hi | hi
    · obtain ⟨chunk, -, rfl⟩ := List.mem_map.mp hi
      rfl
    · rw [List.mem_singleton.mp hi]
      rfl
  · rw [List.mem_singleton.mp hi]
    rfl

theorem Progress.exists_mask_eq (p : Progress) (kind : MaskKind) (bytes : List UInt8) :
    ∃ new, Widthless new ∧ p.mask kind bytes = { p with made := new ++ p.made }.settle := by
  unfold Progress.mask
  split
  · exact ⟨[], widthless_nil, rfl⟩
  · exact ⟨_, widthless_maskInstructions kind bytes, rfl⟩

/-- The operators that clear the stack, of which the first in a charstring can carry the width. -/
inductive Clearing where
  /-- Stem hints. -/
  | stem (kind : Stem)
  /-- A mask. -/
  | mask (kind : MaskKind)
  /-- A move. -/
  | move (kind : Move)
  /-- The end of the glyph. -/
  | endchar
  deriving DecidableEq

namespace Clearing

/-- The operator as a token. -/
def token : Clearing → Token
  | .stem kind => .stem kind
  | .mask kind => .mask kind
  | .move kind => .move kind
  | .endchar => .endchar

/-- So many operands before the operator, if it is the first, are one more than it takes. -/
def carriesWidth (op : Clearing) (operands : Nat) : Bool :=
  match op with
  | .move .hmoveto | .move .vmoveto => 1 < operands
  | .stem _ | .mask _ | .move .rmoveto | .endchar => operands % 2 = 1

/-- The width is looked for before every operator but a counter mask. -/
def takesWidth (op : Clearing) (operands : Nat) : Bool :=
  match op with
  | .mask .counter => false
  | op => op.carriesWidth operands

theorem takesWidth_iff (op : Clearing) (operands : Nat) :
    op.takesWidth operands = true ↔
      op.carriesWidth operands = true ∧ op ≠ .mask .counter := by
  cases op with
  | mask kind =>
    cases kind with
    | hint => exact (and_iff_left fun h => by cases h).symm
    | counter => exact iff_of_false Bool.false_ne_true fun h => h.2 rfl
  | _ => exact (and_iff_left fun h => by cases h).symm

end Clearing

namespace Progress

variable {p q : Progress}

/-! ### After stem hints or the path -/

/-- No width is looked for any more. If no stem hint was found, then the path was entered, and no
operand counts as a stem hint. -/
def Closed (p : Progress) : Prop :=
  p.stemFound = false → p.pathEntered = true ∧ p.countsStems = false ∧ p.stemOperands = 0

theorem closed_of_stemFound (h : p.stemFound = true) : p.Closed :=
  fun notFound => absurd (notFound.symm.trans h) Bool.false_ne_true

theorem Closed.widthAllowed (h : p.Closed) : p.widthAllowed = false := by
  unfold Progress.widthAllowed
  cases hs : p.stemFound with
  | true => rfl
  | false => rw [(h hs).1]; rfl

theorem Closed.takeWidthIf {condition : Bool} (h : p.Closed)
    (hq : p.takeWidthIf (p.widthAllowed && condition) = .ok q) : q = p := by
  rw [h.widthAllowed] at hq
  cases hq
  rfl

theorem Closed.settle (h : p.Closed) : p.settle.Closed := fun hs => ⟨(h hs).1, rfl, rfl⟩

theorem Closed.stemsForMask {kind : MaskKind} (h : p.Closed) (hq : p.stemsForMask kind = .ok q) :
    q.Closed ∧ ∃ new, q.made = new ++ p.made ∧ Widthless new := by
  cases kind with
  | hint =>
    have implied : p.implyVstem.Closed ∧
        ∃ new, p.implyVstem.made = new ++ p.made ∧ Widthless new := by
      unfold Progress.implyVstem
      split
      · exact ⟨fun hs => ⟨(h hs).1, (h hs).2.1, rfl⟩, [.plain (.stem .vstem)], rfl,
          widthless_nil.cons rfl⟩
      · exact ⟨h, [], rfl, widthless_nil⟩
    rcases stemsForHintMask_eq_ok hq with ⟨-, rfl⟩ | ⟨-, notFound, r, hr, rfl⟩
    · exact implied
    · obtain ⟨path, counts, none⟩ := implied.1 notFound
      rcases hr with ⟨odd, -, -⟩ | ⟨-, rfl⟩
      · rw [none] at odd
        cases odd
      · exact ⟨fun _ => ⟨path, counts, none⟩, implied.2⟩
  | counter =>
    simp only [Progress.stemsForMask, stemsForCounterMask] at hq
    split at hq
    · cases hq
    · cases hq
      exact ⟨closed_of_stemFound rfl, [], rfl, widthless_nil⟩

/-- **No width is made** after a stem hint was found or the path was entered. So what is true of the
instructions stays true if it is so with other instructions added, and the latest taken back. -/
theorem invariant_closed {R : List Instruction → Prop}
    (append : ∀ new made, Widthless new → R made → R (new ++ made))
    (tail : ∀ i made, R (i :: made) → R made) : Invariant fun p => p.Closed ∧ R p.made := by
  have add {made : List Instruction} {i : Instruction} (hi : i.isWidth = false) (hr : R made) :
      R (i :: made) := append [i] made (widthless_nil.cons hi) hr
  refine
    { operand := ?_, escaped := ?_, stem := ?_, move := ?_, draw := ?_, endchar := ?_,
      takeCallOperand := ?_, mask := ?_ }
  · intro p value ⟨closed, hr⟩
    refine ⟨fun hs => ?_, add value.isWidth_load hr⟩
    obtain ⟨path, counts, none⟩ := closed hs
    refine ⟨path, counts, ?_⟩
    simp only [Progress.operand, counts]
    exact none
  · intro p q operator hq ⟨closed, hr⟩
    cases operator with
    | draw kind => cases hq; exact ⟨fun _ => ⟨rfl, rfl, rfl⟩, add rfl hr⟩
    | arithmetic kind => cases hq; exact ⟨closed.settle, add rfl hr⟩
    | undefined => cases hq
    | unknown => cases hq; exact ⟨closed.settle, hr⟩
  · intro p q kind hq ⟨closed, hr⟩
    obtain ⟨r, ⟨odd, notFound, -⟩ | ⟨-, rfl⟩, rfl⟩ := stem_eq_ok hq
    · rw [(closed notFound).2.2] at odd
      cases odd
    · exact ⟨closed_of_stemFound rfl, add rfl hr⟩
  · intro p q kind hq ⟨closed, hr⟩
    obtain ⟨r, hwidth, hq⟩ := bind_eq_ok.mp hq
    cases closed.takeWidthIf hwidth
    cases hq
    exact ⟨fun _ => ⟨rfl, rfl, rfl⟩, add rfl hr⟩
  · intro p kind ⟨closed, hr⟩
    exact ⟨fun _ => ⟨rfl, rfl, rfl⟩, add rfl hr⟩
  · intro p q hq ⟨closed, hr⟩
    obtain ⟨r, hwidth, hq⟩ := bind_eq_ok.mp hq
    cases closed.takeWidthIf hwidth
    cases hq
    exact ⟨closed.settle, add rfl hr⟩
  · intro p q operand hq ⟨closed, hr⟩
    obtain ⟨i, made, hmade, -, -, rfl⟩ := takeCallOperand_eq_ok hq
    refine ⟨fun hs => ?_, tail i made (hmade ▸ hr)⟩
    obtain ⟨path, counts, none⟩ := closed hs
    refine ⟨path, counts, ?_⟩
    simp only [counts]
    exact none
  · intro p q kind bytes hq _ ⟨closed, hr⟩
    obtain ⟨closed', new, made, widthless⟩ := closed.stemsForMask hq
    obtain ⟨masks, widthless', hmask⟩ := exists_mask_eq q kind bytes
    simp only [hmask]
    refine ⟨Closed.settle (p := { q with made := masks ++ q.made }) closed', ?_⟩
    exact append masks q.made widthless' (made ▸ append new p.made widthless hr)

theorem invariant_closed_widthless : Invariant fun p => p.Closed ∧ Widthless p.made :=
  invariant_closed (fun _ _ widthless h => widthless.append h)
    (fun _ _ h => (List.forall_mem_cons.mp h).2)

/-! ### Before the first operator -/

/-- Only operands were pushed. All of them wait, and all may be for stem hints. -/
structure Fresh (p : Progress) : Prop where
  /-- There is no width among them. -/
  widthless : Widthless p.made
  /-- All of them wait. -/
  waiting : p.pending = p.made.length
  /-- All of them may be for stem hints. -/
  stemOperands : p.stemOperands = p.made.length
  /-- So may the next one. -/
  counts : p.countsStems = true
  /-- No stem hint was found. -/
  noStem : p.stemFound = false
  /-- The path was not entered. -/
  noPath : p.pathEntered = false
  /-- No stem hint was declared. -/
  noHints : p.stems = 0

theorem fresh_start : Fresh {} := ⟨widthless_nil, rfl, rfl, rfl, rfl, rfl, rfl⟩

theorem Fresh.operand (h : p.Fresh) (value : Operand) : (p.operand value).Fresh := by
  refine ⟨h.widthless.cons value.isWidth_load, ?_, ?_, h.counts, h.noStem, h.noPath, h.noHints⟩
  · simp only [Progress.operand, Progress.make, List.length_cons, h.waiting]
  · simp only [Progress.operand, Progress.make, List.length_cons, h.counts, if_true, h.stemOperands]

theorem Fresh.operands (h : p.Fresh) (values : List Operand) : (p.operands values).Fresh := by
  induction values generalizing p with
  | nil => exact h
  | cons value values ih => exact ih (h.operand value)

theorem Fresh.takeCallOperand (h : p.Fresh) {operand : Int32}
    (hq : p.takeCallOperand = .ok (operand, q)) : q.Fresh := by
  obtain ⟨i, made, hmade, -, -, rfl⟩ := takeCallOperand_eq_ok hq
  obtain ⟨widthless, waiting, stemOperands, counts, noStem, noPath, noHints⟩ := h
  rw [hmade] at widthless waiting stemOperands
  rw [List.length_cons] at waiting stemOperands
  refine ⟨(List.forall_mem_cons.mp widthless).2, ?_, ?_, counts, noStem, noPath, noHints⟩
  · simp only [waiting, Nat.add_sub_cancel]
  · simp only [counts, if_true, stemOperands, Nat.add_sub_cancel]

theorem Fresh.not_closed (h : p.Fresh) : ¬p.Closed := fun closed => by
  have path := (closed h.noStem).1
  rw [h.noPath] at path
  cases path

theorem Fresh.widthAllowed (h : p.Fresh) : p.widthAllowed = true := by
  rw [Progress.widthAllowed, h.noStem, h.noPath]
  rfl

theorem Fresh.implyVstem (h : p.Fresh) : p.implyVstem = p := by
  rw [Progress.implyVstem, impliesVstem, h.noStem]
  rfl

/-- From the operands `made`, and no others, come the instructions `made'`. If the width was taken,
it is the first of them, in place of the first operand. If not, there is none. -/
def Took (taken : Bool) (made made' : List Instruction) : Prop :=
  if taken then
    ∃ later n new, made = later ++ [.int n] ∧ made' = new ++ [.withValue .width n] ∧ Widthless new
  else Widthless made'

theorem Took.append {taken : Bool} {made made' new : List Instruction} (h : Took taken made made')
    (widthless : Widthless new) : Took taken made (new ++ made') := by
  cases taken with
  | true =>
    obtain ⟨later, n, new', hmade, rfl, widthless'⟩ := h
    exact ⟨later, n, new ++ new', hmade, (List.append_assoc ..).symm, widthless.append widthless'⟩
  | false => exact widthless.append h

theorem Fresh.took (h : p.Fresh) {taken : Bool}
    (hq : taken = true ∧ p.takeWidth = .ok q ∨ taken = false ∧ q = p) :
    Took taken p.made q.made := by
  rcases hq with ⟨rfl, hq⟩ | ⟨rfl, rfl⟩
  · obtain ⟨index, n, hpending, hindex, rfl⟩ := takeWidth_eq_ok hq
    have length : p.made.length = index + 1 := by rw [← h.waiting, hpending]
    have last : p.made.getLast? = some (.int n) := by
      rw [List.getLast?_eq_getElem?, length, Nat.add_sub_cancel, hindex]
    obtain ⟨later, hlater⟩ := List.getLast?_eq_some_iff.mp last
    have widthless := h.widthless
    rw [hlater] at widthless length
    rw [List.length_append, List.length_singleton] at length
    refine ⟨later, n, later, hlater, ?_, (List.forall_mem_append.mp widthless).1⟩
    simp only
    rw [hlater, ← Nat.add_right_cancel length, List.set_append_right _ _ (Nat.le_refl _),
      Nat.sub_self]
    rfl
  · exact h.widthless

/-- A stem operator takes the width off an odd number of operands. -/
theorem Fresh.stem (h : p.Fresh) {kind : Stem} (hq : p.stem kind = .ok q) :
    Took ((Clearing.stem kind).takesWidth p.made.length) p.made q.made ∧ q.stemFound = true := by
  obtain ⟨r, hr, rfl⟩ := stem_eq_ok hq
  refine ⟨?_, rfl⟩
  rw [← h.stemOperands]
  have took : Took (p.stemOperands % 2 = 1) p.made r.made := by
    rcases hr with ⟨odd, -, hr⟩ | ⟨even, rfl⟩
    · obtain ⟨r', hwidth, rfl⟩ := takeStemWidth_eq_ok hr
      exact h.took (q := r') (.inl ⟨decide_eq_true odd, hwidth⟩)
    · exact h.took (.inr ⟨decide_eq_false (by omega), rfl⟩)
  exact took.append (widthless_nil.cons rfl)

/-- So does a hint mask, and the other operands are stem hints. -/
theorem Fresh.stemsForHintMask (h : p.Fresh) (hq : p.stemsForHintMask = .ok q) :
    Took (p.made.length % 2 = 1) p.made q.made ∧ q.stems = p.made.length / 2 ∧
      q.stemFound = (q.stems != 0) ∧ q.pathEntered = false := by
  have cases := stemsForHintMask_eq_ok hq
  rw [h.implyVstem] at cases
  rcases cases with ⟨hints, -⟩ | ⟨-, -, r, hr, rfl⟩
  · exact absurd h.noHints hints
  rw [← h.stemOperands]
  rcases hr with ⟨odd, -, hr⟩ | ⟨notOdd, rfl⟩
  · obtain ⟨r', hwidth, rfl⟩ := takeStemWidth_eq_ok hr
    have path : r'.pathEntered = p.pathEntered := by
      obtain ⟨_, _, -, -, rfl⟩ := takeWidth_eq_ok hwidth
      rfl
    refine ⟨h.took (q := r') (.inl ⟨decide_eq_true odd, hwidth⟩), ?_, rfl, path.trans h.noPath⟩
    simp only
    omega
  · have even : ¬r.stemOperands % 2 = 1 := fun odd => notOdd ⟨odd, h.noPath⟩
    exact ⟨h.took (q := r) (.inr ⟨decide_eq_false even, rfl⟩), rfl, rfl, h.noPath⟩

/-- A counter mask leaves the width among the operands. -/
theorem Fresh.stemsForMask (h : p.Fresh) {kind : MaskKind} (hq : p.stemsForMask kind = .ok q) :
    Took ((Clearing.mask kind).takesWidth p.made.length) p.made q.made ∧
      (q.stemFound = true ∨ kind = .hint ∧ p.made.length ≤ 1 ∧ q.stemFound = false ∧
        q.pathEntered = false ∧ q.stems = 0) := by
  cases kind with
  | hint =>
    obtain ⟨took, stems, found, path⟩ := h.stemsForHintMask hq
    refine ⟨took, ?_⟩
    by_cases none : q.stems = 0
    · exact .inr ⟨rfl, by omega, by rw [found, none]; rfl, path, none⟩
    · exact .inl (by rw [found]; exact bne_iff_ne.mpr none)
  | counter =>
    simp only [Progress.stemsForMask, stemsForCounterMask] at hq
    split at hq
    · cases hq
    · cases hq
      exact ⟨h.widthless, .inl rfl⟩

/-- A move takes the width off the operands if there are more than it needs. -/
theorem Fresh.move (h : p.Fresh) {kind : Move} (hq : p.move kind = .ok q) :
    Took ((Clearing.move kind).takesWidth p.made.length) p.made q.made := by
  obtain ⟨r, hr, hq⟩ := bind_eq_ok.mp hq
  have counted : p.moveHasWidth kind = (Clearing.move kind).takesWidth p.made.length := by
    rw [← h.waiting]
    cases kind <;> rfl
  rw [h.widthAllowed, Bool.true_and, counted] at hr
  cases hq
  exact (h.took (takeWidthIf_eq_ok hr)).append (widthless_nil.cons rfl)

/-- The end of the glyph takes the width off an odd number of operands. -/
theorem Fresh.endchar (h : p.Fresh) (hq : p.endchar = .ok q) :
    Took (Clearing.endchar.takesWidth p.made.length) p.made q.made := by
  obtain ⟨r, hr, hq⟩ := bind_eq_ok.mp hq
  rw [h.widthAllowed, Bool.true_and, h.waiting] at hr
  cases hq
  exact (h.took (takeWidthIf_eq_ok hr)).append (widthless_nil.cons rfl)

/-- **The first operator** that clears the stack takes the width if it carries one, unless it is a
counter mask. -/
theorem Fresh.clear (h : p.Fresh) {sets : SubroutineSets}
    {run : Option (List UInt8 → Progress → Decoded)} {op : Clearing} {rest : List UInt8}
    {next : Next} (hp : perform sets run op.token p rest = .ok next) :
    Took (op.takesWidth p.made.length) p.made next.progress.made := by
  cases op with
  | stem kind =>
    obtain ⟨q, hq, rfl⟩ := map_eq_ok.mp hp
    exact (h.stem hq).1
  | mask kind =>
    obtain ⟨q, bytes, left, hq, -, rfl⟩ := perform_mask_eq_ok hp
    obtain ⟨new, widthless, hmask⟩ := exists_mask_eq q kind bytes
    simp only [Next.progress, hmask]
    exact (h.stemsForMask hq).1.append widthless
  | move kind =>
    obtain ⟨q, hq, rfl⟩ := map_eq_ok.mp hp
    exact h.move hq
  | endchar =>
    obtain ⟨q, hq, rfl⟩ := map_eq_ok.mp hp
    exact h.endchar hq

/-- Operators have taken the operands, but no stem hint was found, the path was not entered, and no
operand counts as a stem hint. -/
structure Stranded (p : Progress) : Prop where
  /-- No operand is counted. -/
  stemOperands : p.stemOperands = 0
  /-- None will be. -/
  counts : p.countsStems = false
  /-- No stem hint was found. -/
  noStem : p.stemFound = false
  /-- The path was not entered. -/
  noPath : p.pathEntered = false
  /-- No stem hint was declared. -/
  noHints : p.stems = 0

theorem stranded_settle (noStem : p.stemFound = false) (noPath : p.pathEntered = false)
    (noHints : p.stems = 0) : p.settle.Stranded := ⟨rfl, rfl, noStem, noPath, noHints⟩

/-- After the first operator that clears the stack no width is made, unless it is a hint mask for no
stem hints. Such a mask has no bytes. -/
theorem Fresh.cleared (h : p.Fresh) {sets : SubroutineSets}
    {run : Option (List UInt8 → Progress → Decoded)} {op : Clearing} {rest left : List UInt8}
    (hp : perform sets run op.token p rest = .ok (.go q left)) :
    q.Closed ∨ op = .mask .hint ∧ p.made.length ≤ 1 ∧ left = rest ∧ q.Stranded := by
  cases op with
  | stem kind =>
    obtain ⟨r, hr, hnext⟩ := map_eq_ok.mp hp
    cases hnext
    exact .inl (closed_of_stemFound (h.stem hr).2)
  | mask kind =>
    obtain ⟨r, bytes, left', hr, hbytes, hnext⟩ := perform_mask_eq_ok hp
    cases hnext
    obtain ⟨new, -, hmask⟩ := exists_mask_eq r kind bytes
    rw [hmask]
    rcases (h.stemsForMask hr).2 with found | ⟨rfl, few, notFound, path, none⟩
    · exact .inl (closed_of_stemFound found)
    · obtain ⟨length, -, hrest⟩ := maskBytes_eq_ok hbytes
      have empty : bytes = [] := List.eq_nil_of_length_eq_zero (by rw [length, maskLength, none])
      rw [empty] at hrest
      exact .inr ⟨rfl, few, hrest.symm, stranded_settle notFound path none⟩
  | move kind =>
    obtain ⟨r, hr, hnext⟩ := map_eq_ok.mp hp
    obtain ⟨_, -, hr⟩ := bind_eq_ok.mp hr
    cases hnext
    cases hr
    exact .inl fun _ => ⟨rfl, rfl, rfl⟩
  | endchar =>
    obtain ⟨r, -, hnext⟩ := map_eq_ok.mp hp
    cases hnext

end Progress

end CompactFont.Charstring
