import CompactFont.Proofs.Charstring.Width

/-!
# Widths that come late

Operators of arithmetic, unknown operators, and a hint mask without stem hints clear the operands, but
neither find a stem hint nor enter the path. If the first operator of a charstring is one of them,
the width is still looked for after it (`Progress.Stranded`). It is then made late, which is to say
that it is not the first instruction.

A charstring comes to such a place only while no other operator was executed, and leaves it for good.
So there is at most one late width, and there is none if the first operator is another one
(`tail_of_decode`). A late width does come about, even after a width in front (`decode_lateWidth`).
-/

namespace CompactFont.Charstring

/-! ### The first operator -/

/-- The token is an operator, other than those that call and end subroutines. -/
def Token.isOperator : Token → Bool
  | .operand _ | .reserved | .ret | .call _ => false
  | .escaped _ | .stem _ | .mask _ | .move _ | .draw _ | .endchar => true

/-- The operator, with the bytes that it took, leaves it open whether there is a width. -/
def Token.strands (token : Token) (taken : List UInt8) : Bool :=
  match token with
  | .escaped (.arithmetic _) | .escaped .unknown => true
  | .mask .hint => taken.length = 1
  | _ => false

namespace Execution

/-- The first operator that is executed, with the bytes that it took. -/
def firstOperator? : Execution → Option (Token × List UInt8)
  | .stop => none
  | .token first bytes next =>
    if first.isOperator then some (first, bytes) else next.firstOperator?
  | .call _ callee next => callee.firstOperator?.or next.firstOperator?

/-- The first operator that is executed leaves it open whether there is a width. -/
def strandsWidth (x : Execution) : Bool :=
  x.firstOperator?.any fun (first, bytes) => first.strands bytes

variable {first : Token} {bytes : List UInt8} {callee next : Execution}

theorem firstOperator?_token (h : first.isOperator = false) :
    (token first bytes next).firstOperator? = next.firstOperator? := by
  rw [firstOperator?, if_neg (Bool.eq_false_iff.mp h)]

theorem strandsWidth_token (h : first.isOperator = true) :
    (token first bytes next).strandsWidth = first.strands bytes := by
  rw [strandsWidth, firstOperator?, if_pos h]
  rfl

theorem firstOperator?_call (h : callee.firstOperator? = none) :
    (call bytes callee next).firstOperator? = next.firstOperator? := by
  rw [firstOperator?, h, Option.none_or]

theorem strandsWidth_call (h : callee.strandsWidth = true) :
    (call bytes callee next).strandsWidth = true := by
  rw [strandsWidth] at h ⊢
  rw [firstOperator?]
  cases hc : callee.firstOperator? with
  | none => rw [hc] at h; cases h
  | some operator => rw [hc] at h; exact h

end Execution

theorem Token.eq_of_readAfter_mask {b : UInt8} {bytes rest : List UInt8} {kind : MaskKind}
    (h : Token.readAfter b bytes = .ok (.mask kind, rest)) : rest = bytes := by
  unfold Token.readAfter at h
  split at h
  · obtain ⟨_, _, hm⟩ := map_eq_ok.mp h
    cases hm
  split at h
  · obtain ⟨_, _, hm⟩ := map_eq_ok.mp h
    cases hm
  split at h
  · exact (Prod.mk.inj (Except.ok.inj h)).2.symm
  split at h
  · cases (Prod.mk.inj (Except.ok.inj h)).1
  split at h
  all_goals
    obtain ⟨_, _, hm⟩ := map_eq_ok.mp h
    cases hm

namespace Progress

variable {p q : Progress} {sets : SubroutineSets} {run : Option (List UInt8 → Progress → Decoded)}

/-! ### Late widths -/

/-- How many widths there are besides one that is the first instruction. -/
def lateWidths (p : Progress) : Nat := p.made.dropLast.countP Instruction.isWidth

theorem countP_tail_instructions (p : Progress) :
    p.instructions.tail.countP Instruction.isWidth = p.lateWidths := by
  rw [instructions, List.tail_reverse, List.countP_reverse, lateWidths]

theorem countP_dropLast_append {list list' : List Instruction} (h : Widthless list) :
    (list ++ list').dropLast.countP Instruction.isWidth =
      list'.dropLast.countP Instruction.isWidth := by
  cases list' with
  | nil =>
    rw [List.append_nil, List.dropLast_nil, List.countP_nil, List.countP_eq_zero]
    exact fun i hi => Bool.eq_false_iff.mp (h i (List.dropLast_subset list hi))
  | cons i list' =>
    rw [List.dropLast_append_of_ne_nil (List.cons_ne_nil i list'), List.countP_append,
      List.countP_eq_zero.mpr fun j hj => Bool.eq_false_iff.mp (h j hj), Nat.zero_add]

theorem lateWidths_of_append (new : List Instruction) (h : q.made = new ++ p.made)
    (widthless : Widthless new) : q.lateWidths = p.lateWidths := by
  rw [lateWidths, h, countP_dropLast_append widthless, lateWidths]

theorem countP_dropLast_tail_le (i : Instruction) (made : List Instruction) :
    made.dropLast.countP Instruction.isWidth ≤ (i :: made).dropLast.countP Instruction.isWidth := by
  cases made with
  | nil => exact Nat.le_refl _
  | cons j made =>
    rw [List.dropLast_cons_cons]
    exact (List.sublist_cons_self i _).countP_le

/-- One width more is at most one late width more. -/
theorem lateWidths_takeWidth_le (h : p.takeWidth = .ok q) : q.lateWidths ≤ p.lateWidths + 1 := by
  obtain ⟨later, n, -, -, rfl⟩ := takeWidth_eq_ok h
  rw [lateWidths, lateWidths, List.dropLast_eq_take, List.dropLast_eq_take, List.length_set,
    List.take_set]
  by_cases inside : later < (p.made.take (p.made.length - 1)).length
  · rw [List.countP_set inside, if_pos (show (Instruction.withValue .width n).isWidth from rfl)]
    omega
  · rw [List.set_eq_of_length_le (Nat.not_lt.mp inside)]
    exact Nat.le_succ _

theorem lateWidths_takeWidthIf_le {condition : Bool} (h : p.takeWidthIf condition = .ok q) :
    q.lateWidths ≤ p.lateWidths + 1 := by
  rcases takeWidthIf_eq_ok h with ⟨-, h⟩ | ⟨-, rfl⟩
  · exact lateWidths_takeWidth_le h
  · exact Nat.le_succ _

theorem invariant_closed_lateWidths (n : Nat) :
    Invariant fun p => p.Closed ∧ p.lateWidths ≤ n :=
  invariant_closed (R := fun made => made.dropLast.countP Instruction.isWidth ≤ n)
    (fun _ _ widthless h => (countP_dropLast_append widthless).symm ▸ h)
    (fun i made h => Nat.le_trans (countP_dropLast_tail_le i made) h)

theorem lateWidths_of_widthless (h : Widthless p.made) : p.lateWidths = 0 := by
  rw [lateWidths, ← List.append_nil p.made, countP_dropLast_append h]
  rfl

theorem Took.lateWidths {taken : Bool} {made : List Instruction} (h : Took taken made p.made) :
    p.lateWidths = 0 := by
  cases taken with
  | true =>
    obtain ⟨later, n, new, -, hmade, widthless⟩ := h
    rw [Progress.lateWidths, hmade, countP_dropLast_append widthless]
    rfl
  | false => exact lateWidths_of_widthless h

/-! ### Steps from each kind of place -/

/-- After operators that left it open whether there is a width, nothing else happened. -/
structure Waits (p : Progress) : Prop extends p.Stranded where
  /-- No width came late. -/
  punctual : p.lateWidths = 0

theorem Fresh.not_waits (h : p.Fresh) : ¬p.Waits :=
  fun waits => Bool.false_ne_true (waits.counts.symm.trans h.counts)

theorem Waits.takeCallOperand (h : p.Waits) {operand : Int32}
    (hq : p.takeCallOperand = .ok (operand, q)) : q.Waits := by
  obtain ⟨i, made, hmade, -, -, rfl⟩ := takeCallOperand_eq_ok hq
  obtain ⟨⟨stemOperands, counts, noStem, noPath, noHints⟩, punctual⟩ := h
  rw [lateWidths, hmade] at punctual
  refine ⟨⟨?_, counts, noStem, noPath, noHints⟩, ?_⟩
  · rw [counts]
    exact stemOperands
  · exact Nat.le_zero.mp (punctual ▸ countP_dropLast_tail_le i made)

theorem Waits.of_append (h : p.Waits) (new : List Instruction) (hq : q.Stranded)
    (made : q.made = new ++ p.made) (widthless : Widthless new) : q.Waits :=
  ⟨hq, (lateWidths_of_append new made widthless).trans h.punctual⟩

theorem Waits.closed_of_append (h : p.Waits) (new : List Instruction) (hq : q.Closed)
    (made : q.made = new ++ p.made) (widthless : Widthless new) : q.Closed ∧ q.lateWidths ≤ 1 :=
  ⟨hq, by rw [lateWidths_of_append new made widthless, h.punctual]; decide⟩

theorem Waits.draw (h : p.Waits) (kind : Draw) :
    (p.draw kind).Closed ∧ (p.draw kind).lateWidths ≤ 1 :=
  h.closed_of_append [.plain (.draw kind)] (fun _ => ⟨rfl, rfl, rfl⟩) rfl
    (widthless_nil.cons rfl)

/-- A mask finds no operands that could be stem hints. -/
theorem Stranded.stemsForMask (h : p.Stranded) {kind : MaskKind}
    (hq : p.stemsForMask kind = .ok q) : q.made = p.made ∧ (q.Stranded ∨ q.stemFound = true) := by
  cases kind with
  | hint =>
    have cases := stemsForHintMask_eq_ok hq
    have implied : p.implyVstem = p := by
      rw [implyVstem, impliesVstem, h.noStem]
      rfl
    rw [implied] at cases
    rcases cases with ⟨hints, -⟩ | ⟨-, -, r, ⟨odd, -⟩ | ⟨-, rfl⟩, rfl⟩
    · exact absurd h.noHints hints
    · rw [h.stemOperands] at odd
      cases odd
    · refine ⟨rfl, .inl ⟨h.stemOperands, h.counts, ?_, h.noPath, ?_⟩⟩
      · simp only [h.stemOperands]
        rfl
      · simp only [h.stemOperands]
  | counter =>
    simp only [Progress.stemsForMask, stemsForCounterMask] at hq
    split at hq
    · cases hq
    · cases hq
      exact ⟨rfl, .inr rfl⟩

/-- A token that is performed there leaves it open still, or takes at most one width and closes
the matter. -/
theorem Waits.go (h : p.Waits) {token : Token} {rest left : List UInt8}
    (noCall : token.isCall = false) (hp : perform sets run token p rest = .ok (.go q left)) :
    q.Waits ∨ q.Closed ∧ q.lateWidths ≤ 1 := by
  have stranded := h.toStranded
  cases token with
  | operand value =>
    cases hp
    refine .inl (h.of_append [value.load] ?_ rfl (widthless_nil.cons value.isWidth_load))
    refine ⟨?_, stranded.counts, stranded.noStem, stranded.noPath, stranded.noHints⟩
    simp only [operand, stranded.counts]
    exact stranded.stemOperands
  | reserved => cases hp; exact .inl h
  | escaped operator =>
    obtain ⟨r, hr, hq⟩ := map_eq_ok.mp hp
    cases hq
    cases operator with
    | draw kind => cases hr; exact .inr (h.draw kind)
    | arithmetic kind =>
      cases hr
      exact .inl (h.of_append [.plain (.arithmetic kind)]
        (stranded_settle stranded.noStem stranded.noPath stranded.noHints) rfl
        (widthless_nil.cons rfl))
    | undefined => cases hr
    | unknown =>
      cases hr
      exact .inl (h.of_append []
        (stranded_settle stranded.noStem stranded.noPath stranded.noHints) rfl widthless_nil)
  | stem kind =>
    obtain ⟨r, hr, hq⟩ := map_eq_ok.mp hp
    cases hq
    obtain ⟨r', ⟨odd, -, -⟩ | ⟨-, rfl⟩, rfl⟩ := stem_eq_ok hr
    · rw [stranded.stemOperands] at odd
      cases odd
    · exact .inr (h.closed_of_append [.plain (.stem kind)] (closed_of_stemFound rfl) rfl
        (widthless_nil.cons rfl))
  | move kind =>
    obtain ⟨r, hr, hq⟩ := map_eq_ok.mp hp
    cases hq
    obtain ⟨r', hwidth, hr⟩ := bind_eq_ok.mp hr
    cases hr
    have late := lateWidths_takeWidthIf_le hwidth
    rw [h.punctual] at late
    refine .inr ⟨fun _ => ⟨rfl, rfl, rfl⟩, ?_⟩
    rw [lateWidths_of_append (p := r') [.plain (.move kind)] rfl (widthless_nil.cons rfl)]
    exact late
  | draw kind => cases hp; exact .inr (h.draw kind)
  | mask kind =>
    obtain ⟨r, bytes, left', hr, hbytes, hq⟩ := perform_mask_eq_ok hp
    cases hq
    obtain ⟨new, widthless, hmask⟩ := exists_mask_eq r kind bytes
    obtain ⟨made, after⟩ := stranded.stemsForMask hr
    rw [hmask]
    rcases after with after | found
    · exact .inl (h.of_append new
        (stranded_settle after.noStem after.noPath after.noHints)
        (congrArg (new ++ ·) made) widthless)
    · exact .inr (h.closed_of_append new
        (closed_of_stemFound (p := { r with made := new ++ r.made }.settle) found)
        (congrArg (new ++ ·) made) widthless)
  | endchar =>
    obtain ⟨r, -, hq⟩ := map_eq_ok.mp hp
    cases hq
  | ret => cases hp
  | call scope => cases noCall

/-- The first operator, with nothing before it but operands. -/
theorem Fresh.go (h : p.Fresh) {token : Token} {b : UInt8} {bytes taken rest left : List UInt8}
    (read : Token.readAfter b bytes = .ok (token, rest)) (split : b :: bytes = taken ++ left)
    (noCall : token.isCall = false) (hp : perform sets run token p rest = .ok (.go q left)) :
    token.isOperator = false ∧ q.Fresh ∨
      token.isOperator = true ∧
        (token.strands taken = true ∧ q.Waits ∨ q.Closed ∧ q.lateWidths = 0) := by
  have clears (op : Clearing) (hp : perform sets run op.token p rest = .ok (.go q left)) :
      op = .mask .hint ∧ left = rest ∧ q.Waits ∨ q.Closed ∧ q.lateWidths = 0 := by
    have punctual : q.lateWidths = 0 := (h.clear hp).lateWidths
    rcases h.cleared hp with closed | ⟨hop, -, hleft, stranded⟩
    · exact .inr ⟨closed, punctual⟩
    · exact .inl ⟨hop, hleft, stranded, punctual⟩
  have draws {kind : Draw} : (p.draw kind).Closed ∧ (p.draw kind).lateWidths = 0 :=
    ⟨fun _ => ⟨rfl, rfl, rfl⟩, lateWidths_of_widthless (h.widthless.cons rfl)⟩
  cases token with
  | operand value => cases hp; exact .inl ⟨rfl, h.operand value⟩
  | reserved => cases hp; exact .inl ⟨rfl, h⟩
  | escaped operator =>
    obtain ⟨r, hr, hq⟩ := map_eq_ok.mp hp
    cases hq
    refine .inr ⟨rfl, ?_⟩
    cases operator with
    | draw kind => cases hr; exact .inr draws
    | arithmetic kind =>
      cases hr
      exact .inl ⟨rfl, stranded_settle h.noStem h.noPath h.noHints,
        lateWidths_of_widthless (h.widthless.cons rfl)⟩
    | undefined => cases hr
    | unknown =>
      cases hr
      exact .inl ⟨rfl, stranded_settle h.noStem h.noPath h.noHints,
        lateWidths_of_widthless h.widthless⟩
  | stem kind =>
    refine .inr ⟨rfl, (clears (.stem kind) hp).imp_left ?_⟩
    rintro ⟨⟨⟩, -⟩
  | move kind =>
    refine .inr ⟨rfl, (clears (.move kind) hp).imp_left ?_⟩
    rintro ⟨⟨⟩, -⟩
  | draw kind => cases hp; exact .inr ⟨rfl, .inr draws⟩
  | mask kind =>
    refine .inr ⟨rfl, (clears (.mask kind) hp).imp_left ?_⟩
    rintro ⟨hop, hleft, waits⟩
    cases hop
    -- The mask has no bytes, so the operator took its own byte only.
    rw [hleft, Token.eq_of_readAfter_mask read, ← List.singleton_append] at split
    rw [← List.append_cancel_right split]
    exact ⟨rfl, waits⟩
  | endchar =>
    obtain ⟨r, -, hq⟩ := map_eq_ok.mp hp
    cases hq
  | ret => cases hp
  | call scope => cases noCall

/-! ### Whole charstrings -/

/-- The progress is at a place where no more than `n` widths have come late, and none more will. -/
inductive Stage (n : Nat) (p : Progress) : Prop where
  /-- No operator was executed. -/
  | fresh (h : p.Fresh)
  /-- It is open whether there is a width. -/
  | waits (h : p.Waits) (allowed : 0 < n)
  /-- The matter is closed. -/
  | closed (h : p.Closed) (late : p.lateWidths ≤ n)

namespace Stage

variable {n : Nat}

theorem lateWidths_le (h : Stage n p) : p.lateWidths ≤ n := by
  cases h with
  | fresh h => rw [lateWidths_of_widthless h.widthless]; exact Nat.zero_le n
  | waits h => rw [h.punctual]; exact Nat.zero_le n
  | closed _ late => exact late

theorem takeCallOperand (h : Stage n p) {operand : Int32}
    (hq : p.takeCallOperand = .ok (operand, q)) : Stage n q ∧ (q.Fresh → p.Fresh) := by
  cases h with
  | fresh h => exact ⟨.fresh (h.takeCallOperand hq), fun _ => h⟩
  | waits h allowed =>
    have waits := h.takeCallOperand hq
    exact ⟨.waits waits allowed, fun fresh => absurd waits fresh.not_waits⟩
  | closed h late =>
    obtain ⟨h, late⟩ := (invariant_closed_lateWidths n).takeCallOperand hq ⟨h, late⟩
    exact ⟨.closed h late, fun fresh => absurd h fresh.not_closed⟩

/-- A token that is no call comes from one place to another. -/
theorem go (h : Stage n p) {token : Token} {b : UInt8} {bytes taken rest left : List UInt8}
    (read : Token.readAfter b bytes = .ok (token, rest)) (split : b :: bytes = taken ++ left)
    (noCall : token.isCall = false) (hp : perform sets none token p rest = .ok (.go q left))
    (allowed : p.Fresh → token.isOperator = true → token.strands taken = true → 0 < n) :
    Stage n q ∧ (q.Fresh → p.Fresh ∧ token.isOperator = false) := by
  have waiting (h : q.Waits) {C : Prop} : q.Fresh → C :=
    fun fresh => absurd h fresh.not_waits
  cases h with
  | fresh h =>
    rcases h.go read split noCall hp with
      ⟨other, fresh⟩ | ⟨operator, ⟨strands, waits⟩ | ⟨closed, late⟩⟩
    · exact ⟨.fresh fresh, fun _ => ⟨h, other⟩⟩
    · exact ⟨.waits waits (allowed h operator strands), waiting waits⟩
    · exact ⟨.closed closed (late ▸ Nat.zero_le n), fun fresh => absurd closed fresh.not_closed⟩
  | waits h positive =>
    rcases h.go noCall hp with waits | ⟨closed, late⟩
    · exact ⟨.waits waits positive, waiting waits⟩
    · exact ⟨.closed closed (Nat.le_trans late positive),
        fun fresh => absurd closed fresh.not_closed⟩
  | closed h late =>
    obtain ⟨closed, late⟩ :=
      (invariant_closed_lateWidths n).perform (fun f hf => by cases hf) hp ⟨h, late⟩
    exact ⟨.closed closed late, fun fresh => absurd closed fresh.not_closed⟩

theorem lateWidths_endchar_le (h : Stage n p) (hq : p.endchar = .ok q) : q.lateWidths ≤ n := by
  cases h with
  | fresh h => rw [(h.endchar hq).lateWidths]; exact Nat.zero_le n
  | waits h positive =>
    obtain ⟨r, hr, hq⟩ := bind_eq_ok.mp hq
    cases hq
    have late := lateWidths_takeWidthIf_le hr
    rw [h.punctual] at late
    rw [lateWidths_of_append (p := r) [.plain .endchar] rfl (widthless_nil.cons rfl)]
    exact Nat.le_trans late positive
  | closed h late => exact ((invariant_closed_lateWidths n).endchar hq ⟨h, late⟩).2

/-- Bytes that are executed come from one place to another. At the end of the glyph only the late
widths count. -/
theorem executes (h : Stage n p) {calls : Nat} {bytes : List UInt8} {x : Execution} {e : Ending}
    (hx : Executes sets calls bytes p x e q) (allowed : p.Fresh → x.strandsWidth = true → 0 < n) :
    q.lateWidths ≤ n ∧
      (e ≠ .finished → Stage n q ∧ (q.Fresh → p.Fresh ∧ x.firstOperator? = none)) := by
  induction hx with
  | exhausted => exact ⟨h.lateWidths_le, fun _ => ⟨h, fun fresh => ⟨fresh, rfl⟩⟩⟩
  | go read noCall performed split _ ih =>
    obtain ⟨stage, stays⟩ := h.go read split noCall performed fun fresh operator strands =>
      allowed fresh ((Execution.strandsWidth_token operator).trans strands)
    obtain ⟨late, after⟩ := ih stage fun fresh strands => by
      obtain ⟨fresh, other⟩ := stays fresh
      refine allowed fresh ?_
      rw [Execution.strandsWidth, Execution.firstOperator?_token other]
      exact strands
    refine ⟨late, fun back => ?_⟩
    obtain ⟨stage, stays'⟩ := after back
    refine ⟨stage, fun fresh => ?_⟩
    obtain ⟨fresh, none⟩ := stays' fresh
    obtain ⟨fresh, other⟩ := stays fresh
    exact ⟨fresh, (Execution.firstOperator?_token other).trans none⟩
  | stop read noCall performed split =>
    rcases (perform_eq_stop noCall performed).1 with ⟨rfl, rfl⟩ | ⟨rfl, rfl, rfl⟩
    · obtain ⟨r, hr, hq⟩ := map_eq_ok.mp performed
      cases hq
      exact ⟨h.lateWidths_endchar_le hr, fun back => absurd rfl back⟩
    · exact ⟨h.lateWidths_le, fun _ => ⟨h, fun fresh => ⟨fresh, rfl⟩⟩⟩
  | callBack read split popped known found callee back next ihCallee ihNext =>
    obtain ⟨stage, stays⟩ := h.takeCallOperand popped
    obtain ⟨-, after⟩ := ihCallee stage fun fresh strands =>
      allowed (stays fresh) (Execution.strandsWidth_call strands)
    obtain ⟨stage, stays'⟩ := after back
    obtain ⟨late, after⟩ := ihNext stage fun fresh strands => by
      obtain ⟨fresh, none⟩ := stays' fresh
      refine allowed (stays fresh) ?_
      rw [Execution.strandsWidth, Execution.firstOperator?_call none]
      exact strands
    refine ⟨late, fun back => ?_⟩
    obtain ⟨stage, stays''⟩ := after back
    refine ⟨stage, fun fresh => ?_⟩
    obtain ⟨fresh, none⟩ := stays'' fresh
    obtain ⟨fresh, none'⟩ := stays' fresh
    exact ⟨stays fresh, (Execution.firstOperator?_call none').trans none⟩
  | callFinish read split popped known found callee ih =>
    obtain ⟨stage, stays⟩ := h.takeCallOperand popped
    obtain ⟨late, -⟩ := ih stage fun fresh strands =>
      allowed (stays fresh) (Execution.strandsWidth_call strands)
    exact ⟨late, fun back => absurd rfl back⟩

end Stage

end Progress

/-- A charstring that decodes executes something, and its instructions besides the first one tell
the width as often as it came late. -/
theorem exists_executes_of_decode {sets : SubroutineSets} {charstring : List UInt8}
    {list : List Instruction} (h : decode sets charstring = .ok list) :
    ∃ x e p, Executes sets nestingLimit charstring {} x e p ∧
      list.tail.countP Instruction.isWidth = p.lateWidths := by
  obtain ⟨e, p, q, hd, hq, rfl⟩ := decode_eq_ok h
  rw [← decodeNested_eq] at hd
  obtain ⟨x, hx⟩ := executes_of_decodeNested hd
  refine ⟨x, e, p, hx, ?_⟩
  rw [Progress.countP_tail_instructions]
  rcases hq with rfl | rfl
  · rfl
  · exact Progress.lateWidths_of_append [.plain .ret] rfl (widthless_nil.cons rfl)

/-- **The width comes late at most once**, and it comes in front or not at all if the first operator
that is executed does not leave it open whether there is one. -/
theorem tail_of_decode {sets : SubroutineSets} {charstring : List UInt8} {list : List Instruction}
    (h : decode sets charstring = .ok list) :
    list.tail.countP Instruction.isWidth ≤ 1 ∧
      ∀ x e p, Executes sets nestingLimit charstring {} x e p → x.strandsWidth = false →
        Widthless list.tail := by
  obtain ⟨x, e, p, hx, late⟩ := exists_executes_of_decode h
  rw [late]
  refine ⟨((Progress.Stage.fresh Progress.fresh_start).executes hx fun _ _ => Nat.one_pos).1, ?_⟩
  intro x' e' p' hx' notStranded
  have same := (decodeNested_of_executes hx).symm.trans (decodeNested_of_executes hx')
  cases same
  have start : Progress.Stage 0 {} := .fresh Progress.fresh_start
  have none := (start.executes hx' fun _ strands => by
    rw [notStranded] at strands
    cases strands).1
  rw [← late, Nat.le_zero, List.countP_eq_zero] at none
  exact fun i hi => Bool.eq_false_iff.mpr (none i hi)

/-- The width of a move stands in front, and there is no other. -/
theorem tail_of_decode_rmoveto :
    let sets : SubroutineSets := ⟨⟨.empty⟩, none⟩
    let list : List Instruction :=
      [.withValue .width 10, .int 0, .int 0, .plain (.move .rmoveto), .plain .endchar]
    ∃ x p, Executes sets nestingLimit [149, 139, 139, 21, 14] {} x .finished p ∧
      x.strandsWidth = false ∧ decode sets [149, 139, 139, 21, 14] = .ok list ∧
        Widthless list.tail := by
  intro sets list
  let move : Execution := .token (.operand (.int 0)) [139] (.token (.operand (.int 0)) [139]
    (.token (.move .rmoveto) [21] (.token .endchar [14] .stop)))
  let x : Execution := .token (.operand (.int 10)) [149] move
  obtain ⟨p, hx, made⟩ : ∃ p,
      Executes sets nestingLimit [149, 139, 139, 21, 14] {} x .finished p ∧
        p.instructions = list :=
    ⟨_, .go rfl rfl rfl rfl (.go rfl rfl rfl rfl (.go rfl rfl rfl rfl (.go rfl rfl rfl rfl
      (.stop rfl rfl rfl rfl)))), rfl⟩
  have h : decode sets [149, 139, 139, 21, 14] = .ok list := by rw [decode_of_executes hx, made]
  exact ⟨x, p, hx, rfl, h, (tail_of_decode h).2 x .finished p hx rfl⟩

/-- A width that comes late, after one in front: a hint mask takes its only operand as the width, and
so does the end of the glyph. -/
theorem decode_lateWidth :
    ¬∀ sets charstring list, decode sets charstring = .ok list →
      list.countP Instruction.isWidth ≤ 1 ∧
        ∀ (index : Nat) i, list[index]? = some i → i.isWidth = true → index = 0 := by
  intro h
  have decoded : decode ⟨⟨.empty⟩, none⟩ [145, 19, 144, 14] =
      .ok [.withValue .width 6, .withValue .width 5, .plain .endchar] := by cbv
  cases (h _ _ _ decoded).2 1 _ rfl rfl

end CompactFont.Charstring
