import CompactFont.Proofs.Charstring.Nesting
import CompactFont.Proofs.Charstring.Width

/-!
# What decoding counts

While a charstring is decoded, `Progress` counts the operands that wait for an operator, and those that
may be for stem hints. What the counters are meant to count is the list of operands that wait, which
decoding does not keep. Here it is kept beside the machine that executes the tokens (`Boundary`): an operand
is put in front, a call takes one back, and an operator leaves none.

At each boundary between two tokens the counters agree with that list (`Progress.Booked`), in the charstring
itself and in all subroutines; each token keeps it so (`Progress.Booked.next`, `Boundary.Step.booked`). Hence
there is an operand to become the width whenever a token asks for one, and decoding fails for the width
just when that operand is not an integer (`decode_bookkeeping`).
-/

namespace CompactFont.Charstring

open Relation

/-! ### Boundaries between tokens -/

/-- The operands that wait after a token, the latest first. -/
def Token.waiting (token : Token) (waiting : List Operand) : List Operand :=
  match token with
  | .operand value => value :: waiting
  | .reserved | .ret => waiting
  | .call _ => waiting.tail
  | _ => []

/-- The token that is next, if there is one and it can be read. -/
def Machine.token? (m : Machine) : Option Token :=
  match m.bytes with
  | [] => none
  | b :: bytes =>
    match Token.readAfter b bytes with
    | .ok (token, _) => some token
    | .error _ => none

/-- A place between two tokens in the course of decoding. -/
structure Boundary where
  /-- What is executed from there on. -/
  machine : Machine
  /-- The operands that wait: those since the latest operator, the latest first. -/
  waiting : List Operand

namespace Boundary

/-- What is known there. -/
def progress (b : Boundary) : Progress := b.machine.progress

/-- Where decoding starts. -/
def start (charstring : List UInt8) : Boundary := ⟨.start charstring, []⟩

/-- Decoding goes on from one boundary to the next: a token is executed, which is no call where nine are
active, or a subroutine is left at the end of its bytes. -/
structure Step (sets : SubroutineSets) (b b' : Boundary) : Prop where
  /-- There is no call too many. -/
  low : ¬b.machine.AtLimit sets nestingLimit
  /-- The machine goes on. -/
  turn : b.machine.turn sets = .onward b'.machine
  /-- What waits is changed by the token. -/
  waiting : b'.waiting =
    match b.machine.token? with
    | some token => token.waiting b.waiting
    | none => b.waiting

/-- Decoding gets from one boundary to the other. -/
def Course (sets : SubroutineSets) : Boundary → Boundary → Prop := ReflTransGen (Step sets)

end Boundary

/-! ### The counters -/

namespace Progress

/-- The counters agree with the operands that wait. -/
structure Booked (p : Progress) (waiting : List Operand) : Prop where
  /-- So many operands wait. -/
  pending : p.pending = waiting.length
  /-- Their loads are the latest instructions. -/
  loads : p.made.take p.pending = waiting.map Operand.load
  /-- As long as operands may be for stem hints, all that wait may be. -/
  counting : p.countsStems = true → p.stemOperands = p.pending
  /-- After that, none may be. -/
  settled : p.countsStems = false → p.stemOperands = 0

variable {p q : Progress} {waiting : List Operand} {token : Token}

theorem booked_start : Booked {} [] := ⟨rfl, rfl, fun _ => rfl, fun _ => rfl⟩

/-- After an operator no counter is left. -/
theorem booked_nil (pending : p.pending = 0) (stemOperands : p.stemOperands = 0) : p.Booked [] where
  pending := pending
  loads := by rw [pending, List.take_zero, List.map_nil]
  counting _ := stemOperands.trans pending.symm
  settled _ := stemOperands

theorem booked_settle (p : Progress) : p.settle.Booked [] := booked_nil rfl rfl

theorem Booked.pending_le (h : p.Booked waiting) : p.pending ≤ p.made.length := by
  have length := congrArg List.length h.loads
  rw [List.length_take, List.length_map, ← h.pending] at length
  omega

/-- The latest instructions, as many as operands wait, are loads of one operand. -/
theorem Booked.op_of_mem (h : p.Booked waiting) {i : Instruction} (hi : i ∈ p.made.take p.pending) :
    i.op = .load .int ∨ i.op = .load .fixed := by
  rw [h.loads] at hi
  obtain ⟨value, -, rfl⟩ := List.mem_map.mp hi
  cases value with
  | int n => exact .inl rfl
  | fixed n => exact .inr rfl

theorem Booked.operand (h : p.Booked waiting) (value : Operand) :
    (p.operand value).Booked (value :: waiting) where
  pending := congrArg (· + 1) h.pending
  loads := by
    change (value.load :: p.made).take (p.pending + 1) = _
    rw [List.take_succ_cons, h.loads, List.map_cons]
  counting counts := by
    change p.countsStems = true at counts
    simp only [Progress.operand, make, counts, if_true, h.counting counts]
  settled counts := by
    change p.countsStems = false at counts
    simp only [Progress.operand, make, counts, Bool.false_eq_true, if_false, h.settled counts]

/-- A call takes the latest operand, if one waits. -/
theorem Booked.takeCallOperand (h : p.Booked waiting) {operand : Int32}
    (hq : p.takeCallOperand = .ok (operand, q)) : q.Booked waiting.tail := by
  obtain ⟨i, made, hmade, -, -, rfl⟩ := takeCallOperand_eq_ok hq
  refine ⟨?_, ?_, ?_, ?_⟩
  · change p.pending - 1 = waiting.tail.length
    rw [List.length_tail, h.pending]
  · have loads := h.loads
    rw [hmade] at loads
    change made.take (p.pending - 1) = waiting.tail.map Operand.load
    cases hp : p.pending with
    | zero =>
      obtain rfl : waiting = [] := List.eq_nil_of_length_eq_zero (h.pending.symm.trans hp)
      rfl
    | succ n =>
      rw [hp, List.take_succ_cons] at loads
      rw [Nat.add_sub_cancel, List.map_tail, ← loads, List.tail_cons]
  · intro counts
    change p.countsStems = true at counts
    simp only [counts, if_true, h.counting counts]
  · intro counts
    change p.countsStems = false at counts
    simp only [counts, Bool.false_eq_true, if_false, h.settled counts]

/-- A token that is no call keeps the counters right, and no operand counts as a stem hint any more once
that is so. -/
theorem Booked.next (h : p.Booked waiting) {sets : SubroutineSets}
    {run : Option (List UInt8 → Progress → Decoded)} {rest : List UInt8} {next : Next}
    (noCall : token.isCall = false) (performed : perform sets run token p rest = .ok next) :
    next.progress.Booked (token.waiting waiting) ∧
      (p.countsStems = false → next.progress.countsStems = false) := by
  cases token with
  | operand value =>
    cases performed
    exact ⟨h.operand value, id⟩
  | reserved =>
    cases performed
    exact ⟨h, id⟩
  | ret =>
    cases performed
    exact ⟨h, id⟩
  | escaped operator =>
    obtain ⟨q, hq, rfl⟩ := map_eq_ok.mp performed
    cases operator with
    | undefined => cases hq
    | _ =>
      cases hq
      exact ⟨booked_settle _, fun _ => rfl⟩
  | stem kind =>
    obtain ⟨q, hq, rfl⟩ := map_eq_ok.mp performed
    obtain ⟨r, hr, rfl⟩ := stem_eq_ok hq
    refine ⟨booked_nil rfl rfl, fun settled => ?_⟩
    rcases hr with ⟨-, -, hr⟩ | ⟨-, rfl⟩
    · obtain ⟨s, hs, rfl⟩ := takeStemWidth_eq_ok hr
      obtain ⟨_, _, -, -, rfl⟩ := takeWidth_eq_ok hs
      exact settled
    · exact settled
  | move kind =>
    obtain ⟨q, hq, rfl⟩ := map_eq_ok.mp performed
    obtain ⟨r, -, hq⟩ := bind_eq_ok.mp hq
    cases hq
    exact ⟨booked_settle _, fun _ => rfl⟩
  | draw kind =>
    cases performed
    exact ⟨booked_settle _, fun _ => rfl⟩
  | mask kind =>
    obtain ⟨q, bytes, left, -, -, rfl⟩ := perform_mask_eq_ok performed
    obtain ⟨new, -, same⟩ := exists_mask_eq q kind bytes
    simp only [Next.progress, same]
    exact ⟨booked_settle _, fun _ => rfl⟩
  | endchar =>
    obtain ⟨q, hq, rfl⟩ := map_eq_ok.mp performed
    obtain ⟨r, -, hq⟩ := bind_eq_ok.mp hq
    cases hq
    exact ⟨booked_settle _, fun _ => rfl⟩
  | call scope => cases noCall

/-! ### The operand that becomes the width -/

/-- The token takes the width off the operands that wait. -/
def asksWidth (p : Progress) : Token → Bool
  | .endchar => p.widthAllowed && p.pending % 2 == 1
  | .move kind => p.widthAllowed && p.moveHasWidth kind
  | .stem _ => p.stemOperands % 2 == 1 && !p.stemFound
  | .mask .hint => p.stems == 0 && !p.stemFound && p.stemOperands % 2 == 1 && !p.pathEntered
  | _ => false

/-- Where a token takes the width, an operand waits. -/
theorem Booked.pending_pos (h : p.Booked waiting) (asks : p.asksWidth token = true) : 0 < p.pending := by
  -- An odd number of operands for stem hints is not zero, so they are counted still, and all that wait are.
  have counted (odd : p.stemOperands % 2 = 1) : 0 < p.pending := by
    cases counts : p.countsStems with
    | true =>
      have same := h.counting counts
      omega
    | false =>
      have none := h.settled counts
      omega
  cases token with
  | endchar =>
    simp only [asksWidth, Bool.and_eq_true, beq_iff_eq] at asks
    omega
  | move kind =>
    simp only [asksWidth, Bool.and_eq_true] at asks
    cases kind <;> simp only [moveHasWidth, beq_iff_eq, decide_eq_true_eq] at asks <;> omega
  | stem kind =>
    simp only [asksWidth, Bool.and_eq_true, beq_iff_eq] at asks
    exact counted asks.1
  | mask kind =>
    cases kind with
    | hint =>
      simp only [asksWidth, Bool.and_eq_true, beq_iff_eq] at asks
      exact counted asks.1.2
    | counter => cases asks
  | _ => cases asks

/-- The first operand that waits becomes the width, if it is an integer. -/
def widthFrom (p : Progress) : Operand → Except FontFault Progress
  | .int n => .ok { p with made := p.made.set (p.pending - 1) (.withValue .width n.toInt32) }
  | .fixed _ => .error .widthNotInteger

theorem takeWidth_eq {first : Operand} (pos : 0 < p.pending)
    (here : p.made[p.pending - 1]? = some first.load) : p.takeWidth = p.widthFrom first := by
  obtain ⟨later, hp⟩ : ∃ later, p.pending = later + 1 := ⟨p.pending - 1, by omega⟩
  rw [hp, Nat.add_sub_cancel] at here
  simp only [takeWidth, hp, here]
  cases first with
  | int n =>
    simp only [widthFrom, hp, Nat.add_sub_cancel]
    rfl
  | fixed n => rfl

/-- Where a token takes the width, it is the first of the operands that wait. -/
theorem Booked.exists_first (h : p.Booked waiting) (asks : p.asksWidth token = true) :
    ∃ first, waiting.getLast? = some first ∧ p.made[p.pending - 1]? = some first.load ∧
      p.takeWidth = p.widthFrom first := by
  have pos := h.pending_pos asks
  have some : waiting ≠ [] := by
    rw [← List.length_pos_iff, ← h.pending]
    exact pos
  have here : p.made[p.pending - 1]? = Option.some (waiting.getLast some).load := by
    calc p.made[p.pending - 1]?
        = (p.made.take p.pending)[p.pending - 1]? := (List.getElem?_take_of_lt (by omega)).symm
      _ = (waiting.map Operand.load)[waiting.length - 1]? := by rw [h.loads, h.pending]
      _ = waiting.getLast?.map Operand.load := by rw [List.getElem?_map, List.getLast?_eq_getElem?]
      _ = _ := by rw [List.getLast?_eq_some_getLast some, Option.map_some]
  exact ⟨waiting.getLast some, List.getLast?_eq_some_getLast some, here, takeWidth_eq pos here⟩

theorem takeWidthIf_eq_error_iff {condition : Bool} {fault : FontFault} :
    p.takeWidthIf condition = .error fault ↔ condition = true ∧ p.takeWidth = .error fault := by
  cases condition with
  | true => exact (and_iff_right rfl).symm
  | false => exact iff_of_false ok_ne_error fun h => Bool.false_ne_true h.1

theorem takeStemWidth_eq_error_iff {fault : FontFault} :
    p.takeStemWidth = .error fault ↔ p.takeWidth = .error fault := bind_pure_eq_error

/-- Stem hints fail for the width if it is taken off their operands. -/
theorem stem_eq_widthNotInteger_iff {kind : Stem} :
    p.stem kind = .error .widthNotInteger ↔
      p.asksWidth (.stem kind) = true ∧ p.takeWidth = .error .widthNotInteger := by
  simp only [asksWidth, Bool.and_eq_true, beq_iff_eq, Bool.not_eq_true', stem]
  by_cases odd : p.stemOperands % 2 = 1
  · cases found : p.stemFound with
    | true =>
      refine iff_of_false (fun failed => ?_) (fun h => Bool.false_ne_true h.1.2.symm)
      simp only [odd, if_true] at failed
      cases failed
    | false =>
      rw [and_iff_right ⟨odd, rfl⟩, ← takeStemWidth_eq_error_iff]
      simp only [odd, if_true, Bool.false_eq_true, if_false]
      exact bind_pure_eq_error
  · refine iff_of_false (fun failed => ?_) (fun h => odd h.1.1)
    simp only [odd, if_false] at failed
    cases failed

/-- A mask fails for the width if it is taken off the operands before a hint mask. -/
theorem stemsForMask_eq_widthNotInteger_iff {kind : MaskKind} :
    p.stemsForMask kind = .error .widthNotInteger ↔
      p.asksWidth (.mask kind) = true ∧ p.takeWidth = .error .widthNotInteger := by
  cases kind with
  | counter =>
    refine iff_of_false (fun failed => ?_) (fun h => Bool.false_ne_true h.1)
    simp only [stemsForMask, stemsForCounterMask] at failed
    split at failed <;> cases failed
  | hint =>
    simp only [asksWidth, Bool.and_eq_true, beq_iff_eq, Bool.not_eq_true', stemsForMask]
    cases found : p.stemFound with
    | true =>
      refine iff_of_false (fun failed => ?_) (fun h => Bool.false_ne_true h.1.1.1.2.symm)
      rw [stemsForHintMask_of_found found] at failed
      split at failed <;> cases failed
    | false =>
      have same : p.implyVstem = p := by simp [implyVstem, impliesVstem, found]
      simp only [stemsForHintMask, same, Bool.not_eq_true']
      rw [found]
      by_cases none : p.stems = 0
      · by_cases odd : p.stemOperands % 2 = 1 ∧ p.pathEntered = false
        · refine Iff.trans ?_ (and_iff_right ⟨⟨⟨none, trivial⟩, odd.1⟩, odd.2⟩).symm
          rw [if_pos none, if_neg Bool.false_ne_true, if_pos odd, ← takeStemWidth_eq_error_iff]
          exact bind_pure_eq_error
        · refine iff_of_false (fun failed => ?_) (fun h => odd ⟨h.1.1.2, h.1.2⟩)
          rw [if_pos none, if_neg Bool.false_ne_true, if_neg odd] at failed
          cases failed
      · refine iff_of_false (fun failed => ?_) (fun h => none h.1.1.1.1)
        rw [if_neg none] at failed
        cases failed

/-- A token that is no call fails for the width just if it takes the width, and there is none to take. -/
theorem perform_eq_widthNotInteger_iff {sets : SubroutineSets}
    {run : Option (List UInt8 → Progress → Decoded)} {rest : List UInt8}
    (noCall : token.isCall = false) :
    perform sets run token p rest = .error .widthNotInteger ↔
      p.asksWidth token = true ∧ p.takeWidth = .error .widthNotInteger := by
  have never (asks : p.asksWidth token = false)
      (other : perform sets run token p rest ≠ .error .widthNotInteger) :
      perform sets run token p rest = .error .widthNotInteger ↔
        p.asksWidth token = true ∧ p.takeWidth = .error .widthNotInteger :=
    iff_of_false other fun h => Bool.false_ne_true (asks.symm.trans h.1)
  cases token with
  | operand value => exact never rfl ok_ne_error
  | reserved => exact never rfl ok_ne_error
  | draw kind => exact never rfl ok_ne_error
  | ret => exact never rfl ok_ne_error
  | escaped operator =>
    refine never rfl fun failed => ?_
    have failed := map_eq_error.mp failed
    cases operator <;> cases failed
  | stem kind => exact map_eq_error.trans stem_eq_widthNotInteger_iff
  | move kind =>
    rw [asksWidth, ← takeWidthIf_eq_error_iff]
    exact map_eq_error.trans bind_pure_eq_error
  | endchar =>
    rw [asksWidth, ← takeWidthIf_eq_error_iff]
    exact map_eq_error.trans bind_pure_eq_error
  | mask kind =>
    rw [← stemsForMask_eq_widthNotInteger_iff]
    simp only [perform]
    split
    · rename_i fault failed
      simp only [failed, Except.error.injEq]
    · rename_i q ok
      rw [ok]
      refine iff_of_false (fun failed => ?_) ok_ne_error
      split at failed <;> cases failed
  | call scope => cases noCall

end Progress

/-! ### Turns of the machine -/

namespace Machine

variable {sets : SubroutineSets} {m m' : Machine} {returns : List (List UInt8)} {b : UInt8}
  {bytes rest : List UInt8} {p : Progress}

theorem turn_token {token : Token} (read : Token.readAfter b bytes = .ok (token, rest))
    (noCall : token.isCall = false) :
    turn sets ⟨returns, b :: bytes, p⟩ = follow returns (perform sets none token p rest) := by
  cases token with
  | call scope => cases noCall
  | _ => simp only [turn, read]

/-- The end of some bytes is not a fault. -/
theorem leave_ok_ne_error (e : Ending) (p : Progress) (fault : FontFault) :
    leave returns (.ok (e, p)) ≠ .finish (.error fault) := by
  intro h
  cases e <;> cases returns <;> cases h

theorem follow_eq_error_iff {next : Except FontFault Next} {fault : FontFault} :
    follow returns next = .finish (.error fault) ↔ next = .error fault := by
  rcases next with fault' | ⟨q, rest⟩ | ⟨e, q⟩
  · simp only [follow, Turn.finish.injEq, Except.error.injEq]
  · exact iff_of_false (fun h => by cases h) ok_ne_error
  · exact iff_of_false (leave_ok_ne_error e q fault) ok_ne_error

/-- What the machine goes on with. -/
theorem leave_eq_onward {e : Ending} (h : leave returns (.ok (e, p)) = .onward m') : m'.progress = p := by
  cases e <;> cases returns <;> cases h <;> rfl

/-- A turn that goes on leaves bytes, follows a call or performs another token. -/
theorem turn_eq_onward (h : m.turn sets = .onward m') :
    m.token? = none ∧ m'.progress = m.progress ∨
      (∃ scope operand, m.token? = some (.call scope) ∧
        m.progress.takeCallOperand = .ok (operand, m'.progress)) ∨
      ∃ token rest next, m.token? = some token ∧ token.isCall = false ∧
        perform sets none token m.progress rest = .ok next ∧ m'.progress = next.progress := by
  obtain ⟨returns, bytes, p⟩ := m
  cases bytes with
  | nil =>
    change leave returns (.ok (.exhausted, p)) = .onward m' at h
    exact .inl ⟨rfl, leave_eq_onward h⟩
  | cons b bytes =>
    cases read : Token.readAfter b bytes with
    | error fault =>
      simp only [turn, read] at h
      cases h
    | ok result =>
      obtain ⟨token, rest⟩ := result
      have next : token? ⟨returns, b :: bytes, p⟩ = some token := by simp only [token?, read]
      cases hc : token.isCall with
      | true =>
        obtain ⟨scope, rfl⟩ := Token.isCall_eq_true hc
        simp only [turn, read] at h
        split at h
        · cases h
        · rename_i subroutine q called
          cases h
          obtain ⟨⟨operand, q'⟩, popped, called⟩ := bind_eq_ok.mp called
          obtain ⟨subroutines, -, called⟩ := bind_eq_ok.mp called
          obtain ⟨found, -, called⟩ := bind_eq_ok.mp called
          cases called
          exact .inr (.inl ⟨scope, operand, next, popped⟩)
      | false =>
        rw [turn_token read hc] at h
        refine .inr (.inr ⟨token, rest, ?_⟩)
        cases performed : perform sets none token p rest with
        | error fault =>
          rw [performed] at h
          cases h
        | ok result =>
          rw [performed] at h
          refine ⟨result, next, hc, rfl, ?_⟩
          cases result with
          | go q rest =>
            cases h
            rfl
          | stop e q => exact leave_eq_onward h

theorem exists_call (h : m.calls sets = true) : ∃ scope, m.token? = some (.call scope) := by
  obtain ⟨returns, bytes, p⟩ := m
  cases bytes with
  | nil => cases h
  | cons b bytes =>
    simp only [calls] at h
    split at h
    · rename_i scope rest read
      exact ⟨scope, by simp only [token?, read]⟩
    · cases h

/-- The choice of a subroutine does not fail for the width. -/
theorem callee_ne_widthNotInteger (sets : SubroutineSets) (scope : SubrScope) (p : Progress) :
    callee sets scope p ≠ .error .widthNotInteger := by
  intro failed
  rcases bind_eq_error.mp failed with failed | ⟨taken, -, failed⟩
  · unfold Progress.takeCallOperand at failed
    repeat' split at failed
    all_goals cases failed
  rcases bind_eq_error.mp failed with failed | ⟨subroutines, -, failed⟩
  · unfold SubroutineSets.get at failed
    repeat' split at failed
    all_goals cases failed
  rcases bind_eq_error.mp failed with failed | ⟨subroutine, -, failed⟩
  · unfold Subroutines.get at failed
    split at failed <;> cases failed
  · cases failed

/-- The machine fails for the width just if the next token takes it, and there is none to take. -/
theorem turn_eq_widthNotInteger_iff :
    m.turn sets = .finish (.error .widthNotInteger) ↔
      ∃ token, m.token? = some token ∧ m.progress.asksWidth token = true ∧
        m.progress.takeWidth = .error .widthNotInteger := by
  obtain ⟨returns, bytes, p⟩ := m
  cases bytes with
  | nil =>
    refine iff_of_false (leave_ok_ne_error .exhausted p _) ?_
    rintro ⟨token, none, -⟩
    cases none
  | cons b bytes =>
    cases read : Token.readAfter b bytes with
    | error fault =>
      simp only [turn, token?, read]
      refine iff_of_false (fun h => by cases h) ?_
      rintro ⟨token, none, -⟩
      cases none
    | ok result =>
      obtain ⟨token, rest⟩ := result
      simp only [token?, read, Option.some.injEq, exists_eq_left']
      cases hc : token.isCall with
      | true =>
        obtain ⟨scope, rfl⟩ := Token.isCall_eq_true hc
        refine iff_of_false (fun failed => ?_) (fun h => Bool.false_ne_true h.1)
        simp only [turn, read] at failed
        split at failed
        · rename_i fault called
          cases failed
          exact callee_ne_widthNotInteger sets scope p called
        · cases failed
      | false =>
        rw [turn_token read hc, follow_eq_error_iff]
        exact Progress.perform_eq_widthNotInteger_iff hc

end Machine

/-! ### The counters in the course of decoding -/

namespace Boundary

variable {sets : SubroutineSets} {b b' : Boundary}

/-- From one boundary to the next the counters stay right, and no operand counts as a stem hint any more
once that is so. -/
theorem Step.booked (h : Step sets b b') (booked : b.progress.Booked b.waiting) :
    b'.progress.Booked b'.waiting ∧
      (b.progress.countsStems = false → b'.progress.countsStems = false) := by
  obtain ⟨-, turn, waiting⟩ := h
  rcases Machine.turn_eq_onward turn with ⟨none, same⟩ | ⟨scope, operand, call, popped⟩ |
    ⟨token, rest, next, some, noCall, performed, same⟩
  · rw [none] at waiting
    change b'.progress = b.progress at same
    rw [waiting, same]
    exact ⟨booked, id⟩
  · rw [call] at waiting
    rw [waiting]
    refine ⟨booked.takeCallOperand popped, fun settled => ?_⟩
    obtain ⟨i, made, -, -, -, same⟩ := Progress.takeCallOperand_eq_ok popped
    change b'.progress = _ at same
    rw [same]
    exact settled
  · rw [some] at waiting
    change b'.progress = next.progress at same
    rw [waiting, same]
    exact booked.next noCall performed

/-- So it is between any two boundaries. -/
theorem Course.booked (h : Course sets b b') (booked : b.progress.Booked b.waiting) :
    b'.progress.Booked b'.waiting ∧
      (b.progress.countsStems = false → b'.progress.countsStems = false) := by
  induction h with
  | refl => exact ⟨booked, id⟩
  | tail _ step ih =>
    have next := step.booked ih.1
    exact ⟨next.1, fun settled => next.2 (ih.2 settled)⟩

/-- What a boundary leads to, the one leads to from which decoding gets there. -/
theorem Course.leads (h : Course sets b b') {t : Turn} (last : b'.machine.Leads sets nestingLimit t) :
    b.machine.Leads sets nestingLimit t := by
  induction h with
  | refl => exact last
  | tail _ step ih => exact ih (.onward step.low step.turn last)

/-- Without a call too many there is a boundary wherever the machine gets. -/
theorem exists_course {charstring : List UInt8} (never : ¬CallsWithin sets charstring nestingLimit)
    {m : Machine} (h : Machine.Reaches sets (.start charstring) m) :
    ∃ waiting, Course sets (.start charstring) ⟨m, waiting⟩ := by
  induction h with
  | refl => exact ⟨[], .refl⟩
  | tail reached turn ih =>
    obtain ⟨waiting, course⟩ := ih
    exact ⟨_, course.tail ⟨fun full => never ⟨_, reached, full⟩, turn, rfl⟩⟩

end Boundary

/-- The counters are right wherever decoding gets. -/
theorem Boundary.booked {sets : SubroutineSets} {charstring : List UInt8} {b : Boundary}
    (course : Course sets (.start charstring) b) : b.progress.Booked b.waiting :=
  (course.booked Progress.booked_start).1

/-- Decoding fails for the width if a token takes it, and the first operand that waits is no integer. -/
theorem decode_eq_widthNotInteger_iff (sets : SubroutineSets) (charstring : List UInt8) :
    decode sets charstring = .error .widthNotInteger ↔
      ∃ b token n, Boundary.Course sets (.start charstring) b ∧ b.machine.token? = some token ∧
        b.progress.asksWidth token = true ∧ b.waiting.getLast? = some (.fixed n) := by
  constructor
  · intro failed
    obtain ⟨-, deep⟩ | ⟨never, m, reached, turn⟩ := decode_course sets charstring
    · cases failed.symm.trans deep
    rw [failed, Machine.turn_eq_widthNotInteger_iff] at turn
    obtain ⟨token, next, asks, none⟩ := turn
    obtain ⟨waiting, course⟩ := Boundary.exists_course never reached
    obtain ⟨first, last, -, same⟩ := (Boundary.booked course).exists_first asks
    cases first with
    | int n => cases same.symm.trans none
    | fixed n => exact ⟨⟨m, waiting⟩, token, n, course, next, asks, last⟩
  · rintro ⟨b, token, n, course, next, asks, fixed⟩
    obtain ⟨first, last, -, none⟩ := (Boundary.booked course).exists_first asks
    obtain rfl : first = .fixed n := Option.some.inj (last.symm.trans fixed)
    have turn : b.machine.turn sets = .finish (.error .widthNotInteger) :=
      Machine.turn_eq_widthNotInteger_iff.mpr ⟨token, next, asks, none⟩
    have low : ¬b.machine.AtLimit sets nestingLimit := by
      rintro ⟨calls, -⟩
      obtain ⟨scope, call⟩ := Machine.exists_call calls
      cases next.symm.trans call
      cases asks
    -- The course gets there without a call too many, so it is that of decoding.
    obtain ⟨-, deep⟩ | ⟨never, m, reached, failed⟩ := (course.leads (.here low turn)).reaches
    · cases deep
    obtain ⟨⟨m, reached, full⟩, -⟩ | ⟨-, m', reached', result⟩ := decode_course sets charstring
    · exact absurd full (never m reached)
    · exact Machine.Reaches.finish_unique reached' reached result failed

/-- **The counters are right wherever decoding gets.** At every boundary between two tokens, in the
charstring and in all subroutines, `pending` is how many operands wait since the latest operator, and their
loads are the latest instructions. As long as operands may be for stem hints, `stemOperands` is `pending`;
once they may not be, they never may again, and it stays zero. Where the next token takes the width, the load
of the first operand that waits becomes the width; and decoding fails for the width just if that operand is
not an integer. -/
theorem decode_bookkeeping (sets : SubroutineSets) (charstring : List UInt8) :
    (∀ b, Boundary.Course sets (.start charstring) b →
      (b.progress.pending = b.waiting.length ∧ b.progress.pending ≤ b.progress.made.length ∧
        b.progress.made.take b.progress.pending = b.waiting.map Operand.load ∧
        ∀ i ∈ b.progress.made.take b.progress.pending, i.op = .load .int ∨ i.op = .load .fixed) ∧
      (b.progress.countsStems = true → b.progress.stemOperands = b.progress.pending) ∧
      (b.progress.countsStems = false → ∀ b', Boundary.Course sets b b' →
        b'.progress.countsStems = false ∧ b'.progress.stemOperands = 0) ∧
      ∀ token, b.machine.token? = some token → b.progress.asksWidth token = true →
        ∃ first, b.waiting.getLast? = some first ∧
          b.progress.made[b.progress.pending - 1]? = some first.load ∧
          b.progress.takeWidth = b.progress.widthFrom first) ∧
    (decode sets charstring = .error .widthNotInteger ↔
      ∃ b token n, Boundary.Course sets (.start charstring) b ∧ b.machine.token? = some token ∧
        b.progress.asksWidth token = true ∧ b.waiting.getLast? = some (.fixed n)) := by
  refine ⟨fun b course => ?_, decode_eq_widthNotInteger_iff sets charstring⟩
  have booked := Boundary.booked course
  refine ⟨⟨booked.pending, booked.pending_le, booked.loads, fun i hi => booked.op_of_mem hi⟩,
    booked.counting, ?_, ?_⟩
  · intro settled b' later
    obtain ⟨booked', kept⟩ := later.booked booked
    exact ⟨kept settled, booked'.settled (kept settled)⟩
  · intro token next asks
    exact booked.exists_first asks

/-- Before a move, a number that is not an integer is the first of three operands. It would be the width, and
decoding fails. -/
theorem decode_bookkeeping_rmoveto :
    let sets : SubroutineSets := ⟨⟨.empty⟩, none⟩
    let charstring : List UInt8 := [255, 0, 1, 128, 0, 149, 159, 21]
    decode sets charstring = .error .widthNotInteger ∧
      ∃ b, Boundary.Course sets (.start charstring) b ∧ b.machine.token? = some (.move .rmoveto) ∧
        b.progress.pending = 3 ∧ b.waiting = [.int 20, .int 10, .fixed 98304] := by
  intro sets charstring
  obtain ⟨right, fails⟩ := decode_bookkeeping sets charstring
  let one : Progress := ({} : Progress).operand (.fixed 98304)
  let two : Progress := one.operand (.int 10)
  let b : Boundary := ⟨⟨[], [21], two.operand (.int 20)⟩, [.int 20, .int 10, .fixed 98304]⟩
  have first : Boundary.Step sets (.start charstring) ⟨⟨[], [149, 159, 21], one⟩, [.fixed 98304]⟩ :=
    ⟨Machine.not_atLimit_of_calls rfl, rfl, rfl⟩
  have second : Boundary.Step sets ⟨⟨[], [149, 159, 21], one⟩, [.fixed 98304]⟩
      ⟨⟨[], [159, 21], two⟩, [.int 10, .fixed 98304]⟩ :=
    ⟨Machine.not_atLimit_of_calls rfl, rfl, rfl⟩
  have third : Boundary.Step sets ⟨⟨[], [159, 21], two⟩, [.int 10, .fixed 98304]⟩ b :=
    ⟨Machine.not_atLimit_of_calls rfl, rfl, rfl⟩
  have course : Boundary.Course sets (.start charstring) b :=
    ((ReflTransGen.single first).tail second).tail third
  have pending := (right b course).1.1
  have asks : b.progress.asksWidth (.move .rmoveto) = true := by decide
  exact ⟨fails.mpr ⟨b, .move .rmoveto, 98304, course, rfl, asks, rfl⟩, b, course, rfl, pending, rfl⟩

end CompactFont.Charstring
