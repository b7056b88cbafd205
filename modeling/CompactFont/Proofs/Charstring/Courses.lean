import CompactFont.Proofs.Charstring.Consumption
import CompactFont.Proofs.Charstring.Similar

/-!
# Decoding inputs that differ in masks

If two inputs of one shape have the same bytes wherever the first one takes a byte for a token, both are
read as the same tokens and go through the same calls, with as many bytes for each mask. So what is known
stays similar in both, token by token (`related_perform`), over whole strings of bytes
(`related_decodeBytes`) and through all calls (`related_decodeNested`).

In the end both come to the same fault, or to lists that are the same but for the bytes of masks
(`related_decode`).
-/

namespace CompactFont.Charstring

/-! ### Endings of two courses -/

/-- Two strings of bytes came to the same ending, with similar courses. -/
inductive Ended : Ending × Progress → Ending × Progress → Prop where
  /-- The glyph goes on. -/
  | goesOn {e : Ending} {p p' : Progress} (notFinished : e ≠ .finished) (similar : p.Similar p') :
      Ended (e, p) (e, p')
  /-- The glyph is at its end. -/
  | finished {p p' : Progress} (finished : p.Finished p') : Ended (.finished, p) (.finished, p')

/-- A token leads to as many bytes in both courses, or to the same ending. -/
inductive Onward (rest rest' : List UInt8) : Next → Next → Prop where
  /-- To the bytes that are left. -/
  | go {p p' : Progress} (n : Nat) (similar : p.Similar p') :
      Onward rest rest' (.go p (rest.drop n)) (.go p' (rest'.drop n))
  /-- To an ending. -/
  | stop {e : Ending} {p p' : Progress} (ended : Ended (e, p) (e, p')) :
      Onward rest rest' (.stop e p) (.stop e p')

section

variable {input input' : Input} {run run' : Option (List UInt8 → Progress → Decoded)}
  {callee : SubrScope → Nat → List UInt8 → Progress → List Consumed} {p p' : Progress}

/-- A mask operator is performed alike, whatever the bytes of the mask are. -/
theorem related_perform_mask {sets sets' : SubroutineSets} {rest rest' : List UInt8}
    (similar : p.Similar p') (same : rest.length = rest'.length) (kind : MaskKind) :
    Related (Onward rest rest') (perform sets run (.mask kind) p rest)
      (perform sets' run' (.mask kind) p' rest') := by
  have stems := similar.stemsForMask kind
  simp only [perform]
  generalize p.stemsForMask kind = x, p'.stemsForMask kind = x' at stems
  cases stems with
  | error fault => exact .error fault
  | @ok q q' similar =>
    have bytes := similar.maskBytes same
    dsimp only
    generalize q.maskBytes rest = y, q'.maskBytes rest' = y' at bytes
    cases bytes with
    | error fault => exact .error _
    | ok taken =>
      obtain ⟨length, short, n, left, left'⟩ := taken
      dsimp only
      rw [left, left']
      exact .ok (.go n (similar.mask kind length short))

/-- A call is performed alike, if the subroutine comes to its ending alike. -/
theorem related_perform_call {sets sets' : SubroutineSets} {scope : SubrScope}
    {rest rest' : List UInt8}
    (called : Related Ended (call sets run scope p) (call sets' run' scope p')) :
    Related (Onward rest rest') (perform sets run (.call scope) p rest)
      (perform sets' run' (.call scope) p' rest') := by
  simp only [perform]
  generalize call sets run scope p = x, call sets' run' scope p' = x' at called
  cases called with
  | error fault => exact .error fault
  | ok ended =>
    cases ended with
    | @goesOn e q q' notFinished similar =>
      cases e with
      | finished => exact absurd rfl notFinished
      | _ => exact .ok (.go 0 similar)
    | finished finished => exact .ok (.stop (.finished finished))

/-- A token is performed alike in both courses, if the subroutine that it calls is. -/
theorem related_perform {sets sets' : SubroutineSets} {token : Token} {rest rest' : List UInt8}
    (similar : p.Similar p') (same : rest.length = rest'.length)
    (called : ∀ scope, token = .call scope →
      Related Ended (call sets run scope p) (call sets' run' scope p')) :
    Related (Onward rest rest') (perform sets run token p rest)
      (perform sets' run' token p' rest') := by
  cases token with
  | operand value => exact .ok (.go 0 (similar.operand value))
  | reserved => exact .ok (.go 0 similar)
  | escaped operator => exact (similar.escaped operator).map fun _ _ similar => .go 0 similar
  | stem kind => exact (similar.stem kind).map fun _ _ similar => .go 0 similar
  | move kind => exact (similar.move kind).map fun _ _ similar => .go 0 similar
  | draw kind => exact .ok (.go 0 (similar.draw kind))
  | mask kind => exact related_perform_mask similar same kind
  | endchar => exact similar.endchar.map fun _ _ finished => .stop (.finished finished)
  | ret => exact .ok (.stop (.goesOn nofun similar))
  | call scope => exact related_perform_call (called scope rfl)

/-- What decodes the bytes of subroutines does so alike for two inputs, if these agree on all that is
taken for tokens. -/
def RunsAlike (input input' : Input)
    (callee : SubrScope → Nat → List UInt8 → Progress → List Consumed) :
    Option (List UInt8 → Progress → Decoded) → Option (List UInt8 → Progress → Decoded) → Prop :=
  Option.Rel fun f f' => ∀ {scope stop bytes bytes' p p'},
    Parallel input input' (some scope) stop bytes bytes' → p.Similar p' →
      Agree input input' (callee scope stop bytes p) → Related Ended (f bytes p) (f' bytes' p')

theorem related_call {scope : SubrScope} (shape : input.SameShape input')
    (runs : RunsAlike input input' callee run run') (similar : p.Similar p')
    (agree : Agree input input' (consumedByToken input.sets callee p (.call scope))) :
    Related Ended (call input.sets run scope p) (call input'.sets run' scope p') := by
  refine similar.takeCallOperand.bind ?_
  rintro ⟨operand, q⟩ ⟨operand', q'⟩ popped - ⟨same, similar⟩
  obtain rfl : operand = operand' := same
  refine (shape.get scope).bind fun s s' known known' alike => ?_
  cases runs with
  | none => exact .error _
  | @some f f' each =>
    refine (Subroutines.related_get alike operand).bind fun bytes bytes' found found' length => ?_
    have located' := Input.Located.get known' found'
    rw [← Subroutines.stop_eq alike] at located'
    rw [consumedByToken_call popped known found] at agree
    exact each ⟨length, .get known found, located'⟩ similar agree

/-- **Two courses stay similar** over bytes at the same places, if the inputs agree on all that the first
one takes for tokens there. -/
theorem related_decodeBytes {source : Option SubrScope} {stop : Nat} {bytes bytes' : List UInt8}
    (shape : input.SameShape input') (runs : RunsAlike input input' callee run run')
    (parallel : Parallel input input' source stop bytes bytes') (similar : p.Similar p')
    (agree : Agree input input' (consumedBytes input.sets run callee source stop bytes p)) :
    Related Ended (decodeBytes input.sets run bytes p) (decodeBytes input'.sets run' bytes' p') := by
  induction size : bytes.length using Nat.strongRecOn generalizing bytes bytes' p p' with
  | _ size' ih =>
  subst size
  cases bytes with
  | nil =>
    obtain rfl : bytes' = [] := List.length_eq_zero_iff.mp parallel.length.symm
    rw [decodeBytes, decodeBytes]
    exact .ok (.goesOn (by simp) similar)
  | cons b bytes =>
    obtain ⟨b', bytes', rfl⟩ := List.exists_cons_of_length_eq_add_one parallel.length.symm
    cases read : Token.readAfter b bytes with
    | error fault =>
      rw [consumedBytes_unread read] at agree
      rw [decodeBytes_unread read, decodeBytes_unread (parallel.readAfter_eq_error read agree)]
      exact .error _
    | ok taken =>
      obtain ⟨token, rest⟩ := taken
      rw [consumedBytes_read read] at agree
      obtain ⟨rest', read', parallel⟩ := parallel.readAfter_eq_ok read agree.left.left
      have onward := related_perform similar parallel.length fun scope is =>
        related_call shape runs similar (is ▸ agree.left.right)
      have agree := agree.right
      rw [decodeBytes_read read, decodeBytes_read read']
      generalize perform input.sets run token p rest = next,
        perform input'.sets run' token p' rest' = next' at onward agree
      cases onward with
      | error fault => exact .error fault
      | ok onward =>
        cases onward with
        | go n similar =>
          have shorter := (Token.consumes_readAfter b).length_le read
          refine ih _ ?_ (parallel.drop n) similar agree.right rfl
          rw [List.length_drop, List.length_cons]
          omega
        | stop ended => exact .ok ended

/-- Two courses stay similar, with all the calls that they go through. -/
theorem related_decodeNested {calls : Nat} {source : Option SubrScope} {stop : Nat}
    {bytes bytes' : List UInt8} (shape : input.SameShape input')
    (parallel : Parallel input input' source stop bytes bytes') (similar : p.Similar p')
    (agree : Agree input input' (consumedNested input.sets calls source stop bytes p)) :
    Related Ended (decodeNested input.sets calls bytes p) (decodeNested input'.sets calls bytes' p') := by
  induction calls generalizing source stop bytes bytes' p p' with
  | zero => exact related_decodeBytes shape .none parallel similar agree
  | succ calls ih =>
    exact related_decodeBytes shape (.some fun parallel similar agree => ih parallel similar agree)
      parallel similar agree

end

/-! ### Lists of two inputs -/

/-- Two lists are remasked up to what ends them: nothing, the end of the glyph, or the operator that
ends a subroutine. -/
inductive RemaskedTo : List Instruction → List Instruction → Prop where
  /-- They end alike. -/
  | ending {list list' last : List Instruction} (remasked : Remasked list list')
      (endings : last = [] ∨ last = [.plain .endchar] ∨ last = [.plain .ret]) :
      RemaskedTo (list ++ last) (list' ++ last)

/-- The instructions of a charstring that came to an ending. -/
def listOf : Ending × Progress → List Instruction
  | (.returned, p) => p.instructions ++ [.plain .ret]
  | (_, p) => p.instructions

theorem decode_eq_map (sets : SubroutineSets) (charstring : List UInt8) :
    decode sets charstring = listOf <$> decodeNested sets nestingLimit charstring {} := by
  unfold decode
  rcases decodeNested sets nestingLimit charstring {} with fault | ⟨e, p⟩
  · rfl
  · cases e with
    | returned => exact congrArg Except.ok (p.instructions_make _)
    | _ => rfl

/-- Courses that come to an ending alike make lists that are remasked. -/
theorem Ended.remaskedTo {x x' : Ending × Progress} (h : Ended x x') :
    RemaskedTo (listOf x) (listOf x') := by
  cases h with
  | @goesOn e p p' notFinished similar =>
    have remasked := similar.remasked_instructions
    cases e with
    | exhausted => simpa [listOf] using RemaskedTo.ending remasked (.inl rfl)
    | returned => exact .ending remasked (.inr (.inr rfl))
    | finished => exact absurd rfl notFinished
  | finished finished =>
    cases finished with
    | @endchar p p' similar =>
      have last (p : Progress) : listOf (.finished, (p.make (.plain .endchar)).settle) =
          p.instructions ++ [.plain .endchar] := p.instructions_make (.plain .endchar)
      rw [last, last]
      exact .ending similar.remasked_instructions (.inr (.inl rfl))

/-- **Inputs that differ in masks are decoded alike**: to the same fault, or to lists with other masks.
The inputs are of one shape, and have the same byte wherever the first one takes a byte for a token. -/
theorem related_decode {input input' : Input} (shape : input.SameShape input')
    (agree : Agree input input' input.consumed) :
    Related RemaskedTo input.decode input'.decode := by
  have parallel : Parallel input input' none input.charstring.length input.charstring
      input'.charstring :=
    ⟨shape.charstring, .charstring input, shape.charstring ▸ .charstring input'⟩
  rw [Input.decode, Input.decode, decode_eq_map, decode_eq_map]
  exact (related_decodeNested shape parallel .start agree).map fun _ _ ended => ended.remaskedTo

end CompactFont.Charstring
