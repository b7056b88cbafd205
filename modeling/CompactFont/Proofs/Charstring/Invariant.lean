import CompactFont.Charstring.Decoding
import CompactFont.Proofs.Bytes.Exact
import CompactFont.Proofs.Charstring.Instruction

/-!
# Invariants of decoding

Decoding changes its progress only through a few operations, one for each kind of token and one for
the operand of a call. A property that all of these keep (`Progress.Invariant`) is kept by whole
charstrings, whatever they call and however deep (`Progress.Invariant.decodeNested`). What the
operations do where they succeed is said for those with a choice in them.

Many properties are about the instructions alone. For those it is enough to look at the ways in which
instructions change (`Progress.MadeInvariant`).

Masks are the only tokens that make several instructions at once. What only the others keep is
`Progress.StepInvariant`, or `Progress.MadeStep` if it is about the instructions. Nothing is made after
the end of the glyph; what is kept up to there, by the tokens that lead on, is `Progress.MadeAdvance`.
-/

namespace CompactFont.Charstring

/-! ### Operations that succeed -/

namespace Progress

/-- Taking the width off the operands that wait. -/
theorem takeWidth_eq_ok {p q : Progress} (h : p.takeWidth = .ok q) :
    ∃ later n, p.pending = later + 1 ∧ p.made[later]? = some (.int n) ∧
      q = { p with made := p.made.set later (.withValue .width n) } := by
  unfold takeWidth at h
  split at h
  · cases h
  · rename_i later hpending
    split at h
    · rename_i i hi
      split at h
      · rename_i int
        cases h
        rw [Instruction.eq_int_of_isInt int] at hi
        exact ⟨later, i.value, hpending, hi, rfl⟩
      · cases h
    · cases h

/-- Taking it under a condition. -/
theorem takeWidthIf_eq_ok {p q : Progress} {condition : Bool}
    (h : p.takeWidthIf condition = .ok q) :
    condition = true ∧ p.takeWidth = .ok q ∨ condition = false ∧ q = p := by
  cases condition with
  | true => exact .inl ⟨rfl, h⟩
  | false => cases h; exact .inr ⟨rfl, rfl⟩

/-- Taking it off the operands for stem hints. -/
theorem takeStemWidth_eq_ok {p q : Progress} (h : p.takeStemWidth = .ok q) :
    ∃ r, p.takeWidth = .ok r ∧ q = { r with stemOperands := p.stemOperands - 1 } := by
  obtain ⟨r, hr, h⟩ := bind_eq_ok.mp h
  cases h
  exact ⟨r, hr, rfl⟩

theorem stems_of_takeWidth {p q : Progress} (h : p.takeWidth = .ok q) : q.stems = p.stems := by
  obtain ⟨_, _, -, -, rfl⟩ := takeWidth_eq_ok h
  rfl

/-- The width is no stem hint. -/
theorem stems_of_takeWidthIf {p q : Progress} {condition : Bool}
    (h : p.takeWidthIf condition = .ok q) : q.stems = p.stems := by
  rcases takeWidthIf_eq_ok h with ⟨-, h⟩ | ⟨-, rfl⟩
  · exact stems_of_takeWidth h
  · rfl

/-- Declaring stem hints: the width goes first if the operands are odd in number. -/
theorem stem_eq_ok {p q : Progress} {kind : Stem} (h : p.stem kind = .ok q) :
    ∃ r, (p.stemOperands % 2 = 1 ∧ p.stemFound = false ∧ p.takeStemWidth = .ok r ∨
        p.stemOperands % 2 = 0 ∧ r = p) ∧
      q = { r.countStems.make (.plain (.stem kind)) with
        stemOperands := 0
        pending := 0
        stemFound := true
        latestStem := some kind } := by
  simp only [stem] at h
  split at h
  · rename_i odd
    split at h
    · cases h
    · rename_i found
      obtain ⟨r, hr, h⟩ := bind_eq_ok.mp h
      cases h
      exact ⟨r, .inl ⟨odd, by simpa using found, hr⟩, rfl⟩
  · rename_i even
    cases h
    exact ⟨p, .inr ⟨by omega, rfl⟩, rfl⟩

theorem stemFound_implyVstem {p : Progress} (found : p.stemFound = true) :
    p.implyVstem.stemFound = true := by
  unfold implyVstem
  split <;> exact found

/-- After stem operators, operands before a hint mask are no width. -/
theorem stemsForHintMask_of_found {p : Progress} (found : p.stemFound = true) :
    p.stemsForHintMask =
      if p.implyVstem.stems = 0 then .error .wrongOperandCount else .ok p.implyVstem := by
  simp only [stemsForHintMask, stemFound_implyVstem found, if_true]

/-- Completing the stem hints before a hint mask: either there are some, or those are counted that
wait as operands. -/
theorem stemsForHintMask_eq_ok {p q : Progress} (h : p.stemsForHintMask = .ok q) :
    p.implyVstem.stems ≠ 0 ∧ q = p.implyVstem ∨
    p.implyVstem.stems = 0 ∧ p.implyVstem.stemFound = false ∧
      ∃ r, (p.implyVstem.stemOperands % 2 = 1 ∧ p.implyVstem.pathEntered = false ∧
          p.implyVstem.takeStemWidth = .ok r ∨
          ¬(p.implyVstem.stemOperands % 2 = 1 ∧ p.implyVstem.pathEntered = false) ∧
            r = p.implyVstem) ∧
        q = { r with stems := r.stemOperands / 2, stemFound := r.stemOperands / 2 != 0 } := by
  simp only [stemsForHintMask] at h
  split at h
  · rename_i none
    split at h
    · cases h
    · rename_i found
      refine .inr ⟨none, by simpa using found, ?_⟩
      split at h
      · rename_i odd
        obtain ⟨r, hr, h⟩ := bind_eq_ok.mp h
        cases h
        exact ⟨r, .inl ⟨odd.1, by simpa using odd.2, hr⟩, rfl⟩
      · rename_i even
        cases h
        exact ⟨_, .inr ⟨by simpa using even, rfl⟩, rfl⟩
  · rename_i some
    cases h
    exact .inl ⟨some, rfl⟩

/-- The bytes of a mask are as many as the stem hints ask for, and no more than a value can tell. -/
theorem maskBytes_eq_ok {p : Progress} {bytes front rest : List UInt8}
    (h : p.maskBytes bytes = .ok (front, rest)) :
    front.length = p.maskLength ∧ front.length < 2147483648 ∧ bytes = front ++ rest := by
  unfold maskBytes at h
  split at h
  · rename_i small
    obtain ⟨rfl, length, rfl⟩ := Reader.take_eq_ok h
    exact ⟨length, by omega, (List.take_append_drop p.maskLength bytes).symm⟩
  · cases h

/-- The operand of a call is the latest instruction, which loads an integer. -/
theorem takeCallOperand_eq_ok {p q : Progress} {operand : Int32}
    (h : p.takeCallOperand = .ok (operand, q)) :
    ∃ i made, p.made = i :: made ∧ i.isInt = true ∧ operand = i.value ∧
      q = { p with
        made
        pending := p.pending - 1
        stemOperands := if p.countsStems then p.stemOperands - 1 else p.stemOperands } := by
  unfold takeCallOperand at h
  split at h
  · rename_i i made hmade
    split at h
    · rename_i int
      cases h
      exact ⟨i, made, hmade, int, rfl, rfl⟩
    · cases h
  · cases h

end Progress

/-- What a call that succeeds goes through. -/
theorem call_eq_ok {sets : SubroutineSets} {run : Option (List UInt8 → Progress → Decoded)}
    {scope : SubrScope} {p q : Progress} {e : Ending} (h : call sets run scope p = .ok (e, q)) :
    ∃ operand p' subroutines f subroutine,
      p.takeCallOperand = .ok (operand, p') ∧ sets.get scope = .ok subroutines ∧
      run = some f ∧ subroutines.get operand = .ok subroutine ∧ f subroutine p' = .ok (e, q) := by
  obtain ⟨⟨operand, p'⟩, popped, h⟩ := bind_eq_ok.mp h
  obtain ⟨subroutines, known, h⟩ := bind_eq_ok.mp h
  cases run with
  | none => cases h
  | some f =>
    obtain ⟨subroutine, found, h⟩ := bind_eq_ok.mp h
    exact ⟨operand, p', subroutines, f, subroutine, popped, known, rfl, found, h⟩

/-- What a mask operator that succeeds goes through. -/
theorem perform_mask_eq_ok {sets : SubroutineSets} {run : Option (List UInt8 → Progress → Decoded)}
    {kind : MaskKind} {p : Progress} {rest : List UInt8} {next : Next}
    (h : perform sets run (.mask kind) p rest = .ok next) :
    ∃ q bytes left, p.stemsForMask kind = .ok q ∧ q.maskBytes rest = .ok (bytes, left) ∧
      next = .go (q.mask kind bytes) left := by
  simp only [perform] at h
  split at h
  · cases h
  · rename_i q hq
    split at h
    · cases h
    · rename_i bytes left hbytes
      cases h
      exact ⟨q, bytes, left, hq, hbytes, rfl⟩

/-! ### Properties that decoding keeps -/

/-- What is known after a token. -/
def Next.progress : Next → Progress
  | .go p _ | .stop _ p => p

/-- `P` is kept by all that decoding does to its progress, masks apart. -/
structure Progress.StepInvariant (P : Progress → Prop) : Prop where
  /-- Pushing an operand. -/
  operand {p : Progress} (value : Operand) : P p → P (p.operand value)
  /-- An operator in two bytes. -/
  escaped {p q : Progress} {operator : Escaped} : p.escaped operator = .ok q → P p → P q
  /-- Stem hints. -/
  stem {p q : Progress} {kind : Stem} : p.stem kind = .ok q → P p → P q
  /-- A move. -/
  move {p q : Progress} {kind : Move} : p.move kind = .ok q → P p → P q
  /-- Lines and curves. -/
  draw {p : Progress} (kind : Draw) : P p → P (p.draw kind)
  /-- The end of the glyph. -/
  endchar {p q : Progress} : p.endchar = .ok q → P p → P q
  /-- The operand of a call. -/
  takeCallOperand {p q : Progress} {operand : Int32} :
    p.takeCallOperand = .ok (operand, q) → P p → P q

/-- `P` is kept by all that decoding does to its progress. -/
structure Progress.Invariant (P : Progress → Prop) : Prop extends StepInvariant P where
  /-- A mask, with as many bytes as it has. -/
  mask {p q : Progress} {kind : MaskKind} {bytes : List UInt8} : p.stemsForMask kind = .ok q →
    bytes.length = q.maskLength → P p → P (q.mask kind bytes)

/-- A token that is no mask keeps the property, if the subroutine that it calls does. -/
theorem Progress.StepInvariant.perform {P : Progress → Prop} {sets : SubroutineSets}
    {run : Option (List UInt8 → Progress → Decoded)} (h : StepInvariant P)
    (hrun : ∀ f, run = some f → ∀ bytes p e q, f bytes p = .ok (e, q) → P p → P q)
    {token : Token} {p : Progress} {rest : List UInt8} {next : Next}
    (noMask : ∀ kind, token ≠ .mask kind)
    (ht : Charstring.perform sets run token p rest = .ok next) (hp : P p) : P next.progress := by
  cases token with
  | operand value => cases ht; exact h.operand value hp
  | reserved => cases ht; exact hp
  | escaped operator =>
    obtain ⟨q, hq, rfl⟩ := map_eq_ok.mp ht
    exact h.escaped hq hp
  | stem kind =>
    obtain ⟨q, hq, rfl⟩ := map_eq_ok.mp ht
    exact h.stem hq hp
  | move kind =>
    obtain ⟨q, hq, rfl⟩ := map_eq_ok.mp ht
    exact h.move hq hp
  | draw kind => cases ht; exact h.draw kind hp
  | mask kind => exact absurd rfl (noMask kind)
  | endchar =>
    obtain ⟨q, hq, rfl⟩ := map_eq_ok.mp ht
    exact h.endchar hq hp
  | ret => cases ht; exact hp
  | call scope =>
    have called {e : Ending} {q : Progress} (hc : call sets run scope p = .ok (e, q)) : P q := by
      obtain ⟨operand, p', subroutines, f, bytes, popped, -, hf, -, hc⟩ := call_eq_ok hc
      exact hrun f hf bytes p' e q hc (h.takeCallOperand popped hp)
    simp only [Charstring.perform] at ht
    split at ht
    · cases ht
    · rename_i hc
      cases ht
      exact called hc
    · rename_i hc
      cases ht
      exact called hc

namespace Progress.Invariant

variable {P : Progress → Prop} {sets : SubroutineSets}
  {run : Option (List UInt8 → Progress → Decoded)}

theorem perform (h : Invariant P)
    (hrun : ∀ f, run = some f → ∀ bytes p e q, f bytes p = .ok (e, q) → P p → P q)
    {token : Token} {p : Progress} {rest : List UInt8} {next : Next}
    (ht : Charstring.perform sets run token p rest = .ok next) (hp : P p) : P next.progress := by
  by_cases masks : ∃ kind, token = .mask kind
  · obtain ⟨kind, rfl⟩ := masks
    obtain ⟨q, bytes, left, hq, hbytes, rfl⟩ := perform_mask_eq_ok ht
    exact h.mask hq (Progress.maskBytes_eq_ok hbytes).1 hp
  · exact h.toStepInvariant.perform hrun (fun kind is => masks ⟨kind, is⟩) ht hp

theorem decodeBytes (h : Invariant P)
    (hrun : ∀ f, run = some f → ∀ bytes p e q, f bytes p = .ok (e, q) → P p → P q)
    {bytes : List UInt8} {p q : Progress} {e : Ending}
    (hd : Charstring.decodeBytes sets run bytes p = .ok (e, q)) (hp : P p) : P q := by
  fun_induction Charstring.decodeBytes sets run bytes p with
  | case1 p => cases hd; exact hp
  | case2 p b bytes fault ht => cases hd
  | case3 p b bytes token rest ht fault hn => cases hd
  | case4 p b bytes token rest ht e' p' hn =>
    cases hd
    exact h.perform hrun hn hp
  | case5 p b bytes token rest ht p' left hn _ _ ih => exact ih hd (h.perform hrun hn hp)

/-- Decoding keeps the property, with all the calls that it goes through. -/
theorem decodeNested (h : Invariant P) {calls : Nat} {bytes : List UInt8} {p q : Progress}
    {e : Ending} (hd : Charstring.decodeNested sets calls bytes p = .ok (e, q)) (hp : P p) :
    P q := by
  induction calls generalizing bytes p q e with
  | zero => exact h.decodeBytes (fun f hf => by cases hf) hd hp
  | succ calls ih =>
    refine h.decodeBytes (fun f hf => ?_) hd hp
    cases hf
    exact fun bytes p e q hd hp => ih hd hp

end Progress.Invariant

/-! ### Properties of the instructions -/

/-- The operation is that of an operator with no value, after which decoding goes on. -/
def Op.isOperator : Op → Bool
  | .stem _ | .move _ | .draw _ | .arithmetic _ => true
  | _ => false

theorem Op.isLoad_of_isOperator {op : Op} (h : op.isOperator = true) : op.isLoad = false := by
  cases op <;> first | rfl | cases h

theorem Op.isMask_of_isOperator {op : Op} (h : op.isOperator = true) : op.isMask = false := by
  cases op <;> first | rfl | cases h

/-- `R made pending` is kept by the ways in which all tokens but masks and the end of the glyph change
the instructions, and how many operands wait. -/
structure Progress.MadeAdvance (R : List Instruction → Nat → Prop) : Prop where
  /-- An operand is pushed. -/
  push {made : List Instruction} {n : Nat} (value : Operand) :
    R made n → R (value.load :: made) (n + 1)
  /-- An operation is added. -/
  plain {made : List Instruction} {n : Nat} {op : Op} (operator : op.isOperator = true) :
    R made n → R (.plain op :: made) n
  /-- No operand waits any more. -/
  settle {made : List Instruction} {n : Nat} : R made n → R made 0
  /-- The first operand that waits becomes the width. -/
  width {made : List Instruction} {later : Nat} {n : Int32} :
    made[later]? = some (.int n) → R made (later + 1) →
      R (made.set later (.withValue .width n)) (later + 1)
  /-- The load of an integer is taken back. -/
  pop {made : List Instruction} {i : Instruction} {n : Nat} : i.isInt = true →
    R (i :: made) n → R made (n - 1)

/-- `R made pending` is kept by the ways in which all tokens but masks change the instructions, and
how many operands wait. -/
structure Progress.MadeStep (R : List Instruction → Nat → Prop) : Prop extends MadeAdvance R where
  /-- The glyph ends. -/
  endchar {made : List Instruction} {n : Nat} : R made n → R (.plain .endchar :: made) n

/-- `R made pending` is kept by the ways in which decoding changes its instructions, and how many
operands wait. -/
structure Progress.MadeInvariant (R : List Instruction → Nat → Prop) : Prop where
  /-- An operand is pushed. -/
  push {made : List Instruction} {n : Nat} (value : Operand) :
    R made n → R (value.load :: made) (n + 1)
  /-- An operation is added. -/
  plain {made : List Instruction} {n : Nat} {op : Op} (notLoad : op.isLoad = false) :
    R made n → R (.plain op :: made) n
  /-- A mask is added. -/
  mask {made : List Instruction} {n : Nat} (kind : MaskKind) (bytes : List UInt8) :
    R made n → R ((maskInstructions kind bytes).reverse ++ made) n
  /-- No operand waits any more. -/
  settle {made : List Instruction} {n : Nat} : R made n → R made 0
  /-- The first operand that waits becomes the width. -/
  width {made : List Instruction} {later : Nat} {n : Int32} :
    made[later]? = some (.int n) → R made (later + 1) →
      R (made.set later (.withValue .width n)) (later + 1)
  /-- The load of an integer is taken back. -/
  pop {made : List Instruction} {i : Instruction} {n : Nat} : i.isInt = true →
    R (i :: made) n → R made (n - 1)

namespace Progress.MadeAdvance

variable {R : List Instruction → Nat → Prop} {p q : Progress}

theorem takeWidth (h : MadeAdvance R) (hq : p.takeWidth = .ok q) (hp : R p.made p.pending) :
    R q.made q.pending := by
  obtain ⟨later, n, hpending, hlater, rfl⟩ := takeWidth_eq_ok hq
  rw [hpending] at hp
  simp only [hpending]
  exact h.width hlater hp

theorem takeWidthIf (h : MadeAdvance R) {condition : Bool}
    (hq : p.takeWidthIf condition = .ok q) (hp : R p.made p.pending) : R q.made q.pending := by
  rcases takeWidthIf_eq_ok hq with ⟨-, hq⟩ | ⟨-, rfl⟩
  · exact h.takeWidth hq hp
  · exact hp

theorem takeStemWidth (h : MadeAdvance R) (hq : p.takeStemWidth = .ok q)
    (hp : R p.made p.pending) : R q.made q.pending := by
  obtain ⟨r, hr, rfl⟩ := takeStemWidth_eq_ok hq
  exact h.takeWidth (q := r) hr hp

theorem implyVstem (h : MadeAdvance R) (hp : R p.made p.pending) :
    R p.implyVstem.made p.implyVstem.pending := by
  unfold Progress.implyVstem
  split
  · exact h.plain rfl hp
  · exact hp

/-- What comes before the bytes of a mask. -/
theorem stemsForMask (h : MadeAdvance R) {kind : MaskKind} (hq : p.stemsForMask kind = .ok q)
    (hp : R p.made p.pending) : R q.made q.pending := by
  cases kind with
  | hint =>
    rcases stemsForHintMask_eq_ok hq with ⟨-, rfl⟩ | ⟨-, -, r, hr, rfl⟩
    · exact h.implyVstem hp
    · have kept : R r.made r.pending := by
        rcases hr with ⟨-, -, hr⟩ | ⟨-, rfl⟩
        · exact h.takeStemWidth hr (h.implyVstem hp)
        · exact h.implyVstem hp
      exact kept
  | counter =>
    simp only [Progress.stemsForMask, stemsForCounterMask] at hq
    split at hq
    · cases hq
    · cases hq
      exact hp

theorem escaped (h : MadeAdvance R) {operator : Escaped} (hq : p.escaped operator = .ok q)
    (hp : R p.made p.pending) : R q.made q.pending := by
  cases operator with
  | draw kind => cases hq; exact h.settle (h.plain rfl hp)
  | arithmetic kind => cases hq; exact h.settle (h.plain rfl hp)
  | undefined => cases hq
  | unknown => cases hq; exact h.settle hp

theorem stem (h : MadeAdvance R) {kind : Stem} (hq : p.stem kind = .ok q)
    (hp : R p.made p.pending) : R q.made q.pending := by
  obtain ⟨r, hr, rfl⟩ := stem_eq_ok hq
  have kept : R r.made r.pending := by
    rcases hr with ⟨-, -, hr⟩ | ⟨-, rfl⟩
    · exact h.takeStemWidth hr hp
    · exact hp
  exact h.settle (h.plain rfl kept)

theorem move (h : MadeAdvance R) {kind : Move} (hq : p.move kind = .ok q)
    (hp : R p.made p.pending) : R q.made q.pending := by
  obtain ⟨r, hr, hq⟩ := bind_eq_ok.mp hq
  cases hq
  exact h.settle (h.plain rfl (h.takeWidthIf hr hp))

theorem takeCallOperand (h : MadeAdvance R) {operand : Int32}
    (hq : p.takeCallOperand = .ok (operand, q)) (hp : R p.made p.pending) :
    R q.made q.pending := by
  obtain ⟨i, made, hmade, int, -, rfl⟩ := takeCallOperand_eq_ok hq
  rw [hmade] at hp
  exact h.pop int hp

end Progress.MadeAdvance

namespace Progress.MadeStep

variable {R : List Instruction → Nat → Prop}

theorem stepInvariant (h : MadeStep R) : StepInvariant fun p => R p.made p.pending where
  operand value hp := h.push value hp
  escaped hq hp := h.toMadeAdvance.escaped hq hp
  stem hq hp := h.toMadeAdvance.stem hq hp
  move hq hp := h.toMadeAdvance.move hq hp
  draw kind hp := h.settle (h.plain rfl hp)
  endchar {p q} hq hp := by
    obtain ⟨r, hr, hq⟩ := bind_eq_ok.mp hq
    cases hq
    exact h.settle (h.endchar (h.takeWidthIf hr hp))
  takeCallOperand hq hp := h.toMadeAdvance.takeCallOperand hq hp

/-- A property that all changes of the instructions keep is an invariant of decoding. -/
theorem invariant (h : MadeStep R)
    (mask : ∀ made n kind bytes, R made n → R ((maskInstructions kind bytes).reverse ++ made) n) :
    Invariant fun p => R p.made p.pending where
  toStepInvariant := h.stepInvariant
  mask {p q kind bytes} hq _ hp := by
    have kept := h.stemsForMask hq hp
    unfold Progress.mask
    split
    · exact h.settle kept
    · exact h.settle (mask _ _ kind bytes kept)

end Progress.MadeStep

namespace Progress.MadeInvariant

variable {R : List Instruction → Nat → Prop}

theorem step (h : MadeInvariant R) : MadeStep R where
  push value hp := h.push value hp
  plain operator hp := h.plain (Op.isLoad_of_isOperator operator) hp
  settle hp := h.settle hp
  width hn hp := h.width hn hp
  pop int hp := h.pop int hp
  endchar hp := h.plain rfl hp

theorem invariant (h : MadeInvariant R) : Invariant fun p => R p.made p.pending :=
  h.step.invariant fun _ _ kind bytes hp => h.mask kind bytes hp

end Progress.MadeInvariant

end CompactFont.Charstring
