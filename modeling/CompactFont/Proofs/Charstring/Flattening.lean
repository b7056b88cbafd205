import CompactFont.Proofs.Charstring.Execution

/-!
# Flattening

A charstring is flattened by putting, in place of each call and of the operand before it, the
flattened bytes of the subroutine, up to the operator that ends it (`Execution.flatten`). This takes
that each call directly follows the load of its operand, in the same string of bytes
(`Execution.Direct`), as an operand that is left by a subroutine or by other operators has no bytes
of its own to take out.

**`decode_flatten`**: the flattened charstring, which calls nothing, decodes to the same
instructions. What decoding knows is shared by all the strings of bytes that it goes through, so
that nothing in it tells where the bytes came from; and taking the operand of a call undoes its load
(`Progress.takeCallOperand_operand`).
-/

namespace CompactFont.Charstring

/-! ### The operand of a call -/

/-- Taking the operand of a call right after its load undoes the load. -/
theorem Progress.takeCallOperand_operand (p : Progress) (n : Int16) :
    (p.operand (.int n)).takeCallOperand = .ok (n.toInt32, p) := by
  obtain ⟨made, stems, stemFound, pathEntered, stemOperands, pending, countsStems, latestStem⟩ := p
  cases countsStems with
  | true => rfl
  | false => rfl

theorem Token.isInt_eq_true {token : Token} (h : token.isInt = true) :
    ∃ n, token = .operand (.int n) := by
  cases token with
  | operand value =>
    cases value with
    | int n => exact ⟨n, rfl⟩
    | fixed n => cases h
  | _ => cases h

/-! ### Flattening -/

namespace Execution

/-- A call is executed first. -/
def startsWithCall : Execution → Bool
  | .call _ _ _ => true
  | _ => false

/-- Each call directly follows the load of its operand, in the same string of bytes. `loaded` says
that such a load comes right before. -/
def Direct (loaded : Bool) : Execution → Prop
  | .stop => True
  | .token t _ next => next.Direct t.isInt
  | .call _ callee next => loaded = true ∧ callee.Direct false ∧ next.Direct false

/-- **The flattened bytes** of what is executed. Left out are the bytes of a call and of the token
before it, and `inside` a subroutine those of the operator that ends it. -/
def flatten (inside : Bool) : Execution → List UInt8
  | .stop => []
  | .token t bytes next =>
    if next.startsWithCall = true ∨ inside = true ∧ t = .ret then next.flatten inside
    else bytes ++ next.flatten inside
  | .call _ callee next => callee.flatten true ++ next.flatten inside

theorem startsWithCall_of_direct {x : Execution} (h : x.Direct false) :
    x.startsWithCall = false := by
  cases x with
  | stop => rfl
  | token t bytes next => rfl
  | call bytes callee next => cases h.1

theorem isInt_of_direct {x : Execution} {loaded : Bool} (h : x.Direct loaded)
    (call : x.startsWithCall = true) : loaded = true := by
  cases x with
  | stop => cases call
  | token t bytes next => cases call
  | call bytes callee next => exact h.1

end Execution

/-- After flattened bytes that came to an ending, decoding goes on to the next ones. -/
def Ending.goesOn (inside : Bool) : Ending → Bool
  | .exhausted => true
  | .returned => inside
  | .finished => false

/-! ### Decoding flattened bytes -/

section

variable {sets others : SubroutineSets} {run : Option (List UInt8 → Progress → Decoded)}
  {b : UInt8} {bytes taken rest : List UInt8} {token : Token} {p q : Progress}

/-- The bytes of a token that goes on lead there from wherever they stand. -/
theorem decodeBytes_taken_go {left : List UInt8}
    (read : Token.readAfter b bytes = .ok (token, rest)) (noCall : token.isCall = false)
    (performed : perform sets none token p rest = .ok (.go q left))
    (split : b :: bytes = taken ++ left) (more : List UInt8) :
    decodeBytes others run (taken ++ more) p = decodeBytes others run more q := by
  obtain ⟨front, rfl, hread⟩ := Token.exact_readAfter b _ _ _ read
  obtain ⟨front', rfl, hperform⟩ := perform_eq_go noCall performed
  have htaken : taken = b :: (front ++ front') := by
    have same : taken ++ left = b :: (front ++ front') ++ left := by
      rw [← split, List.cons_append, List.append_assoc]
    exact List.append_cancel_right same
  rw [htaken, List.cons_append, List.append_assoc]
  exact decodeBytes_go (hread (front' ++ more)) (hperform others run more)

/-- The bytes of a token that comes to an end do so wherever they stand. -/
theorem decodeBytes_taken_stop {e : Ending}
    (read : Token.readAfter b bytes = .ok (token, rest)) (noCall : token.isCall = false)
    (performed : perform sets none token p rest = .ok (.stop e q))
    (split : b :: bytes = taken ++ rest) (more : List UInt8) :
    decodeBytes others run (taken ++ more) p = .ok (e, q) := by
  obtain ⟨front, rfl, hread⟩ := Token.exact_readAfter b _ _ _ read
  have htaken : taken = b :: front := by
    have same : taken ++ rest = b :: front ++ rest := by rw [← split, List.cons_append]
    exact List.append_cancel_right same
  rw [htaken, List.cons_append]
  exact decodeBytes_stop (hread more) ((perform_eq_stop noCall performed).2 others run more)

end

/-- Flattened bytes lead to what the execution comes to, and on from there unless they end it. Where
a call is executed first, they lead there from before its operand was loaded. -/
theorem decodeBytes_flatten {sets others : SubroutineSets}
    {run : Option (List UInt8 → Progress → Decoded)} {calls : Nat} {bytes : List UInt8}
    {p q start : Progress} {x : Execution} {e : Ending} {loaded inside : Bool}
    (h : Executes sets calls bytes p x e q) (direct : x.Direct loaded)
    (same : x.startsWithCall = false → start = p)
    (before : x.startsWithCall = true → ∃ n, p = start.operand (.int n)) (more : List UInt8) :
    decodeBytes others run (x.flatten inside ++ more) start =
      if e.goesOn inside = true then decodeBytes others run more q else .ok (e, q) := by
  induction h generalizing loaded inside start more with
  | exhausted =>
    rw [same rfl]
    rfl
  | @go _ _ _ taken _ left t p q _ x e read noCall performed split next ih =>
    rw [same rfl]
    have notRet : t ≠ .ret := by
      rintro rfl
      cases performed
    cases hx : x.startsWithCall with
    | true =>
      -- The token is the operand of the call, and its bytes are left out.
      obtain ⟨n, rfl⟩ := Token.isInt_eq_true (Execution.isInt_of_direct direct hx)
      cases performed
      rw [Execution.flatten, if_pos (.inl hx)]
      exact ih direct (fun h => by rw [hx] at h; cases h) (fun _ => ⟨n, rfl⟩) more
    | false =>
      rw [Execution.flatten, if_neg (by simp [hx, notRet]), List.append_assoc,
        decodeBytes_taken_go read noCall performed split]
      exact ih direct (fun _ => rfl) (fun h => by rw [hx] at h; cases h) more
  | @stop _ _ _ taken _ t p q e read noCall performed split =>
    rw [same rfl]
    rcases (perform_eq_stop noCall performed).1 with ⟨rfl, rfl⟩ | ⟨rfl, rfl, rfl⟩
    · rw [Execution.flatten, if_neg (by simp [Execution.startsWithCall]), List.append_assoc,
        decodeBytes_taken_stop read noCall performed split]
      rfl
    · cases inside with
      | true => rfl
      | false =>
        rw [Execution.flatten, if_neg (by simp [Execution.startsWithCall]), List.append_assoc,
          decodeBytes_taken_stop read noCall performed split]
        rfl
  | @callBack _ _ _ _ _ _ _ _ _ _ _ _ _ _ _ _ e' _ _ popped _ _ _ back _ ihCallee ihNext =>
    obtain ⟨n, rfl⟩ := before rfl
    obtain ⟨-, directCallee, directNext⟩ := direct
    rw [Progress.takeCallOperand_operand] at popped
    cases popped
    have comesBack : e'.goesOn true = true := by
      cases e' with
      | exhausted => rfl
      | returned => rfl
      | finished => exact absurd rfl back
    have hCallee := Execution.startsWithCall_of_direct directCallee
    have hNext := Execution.startsWithCall_of_direct directNext
    rw [Execution.flatten, List.append_assoc,
      ihCallee directCallee (fun _ => rfl) (fun h => by rw [hCallee] at h; cases h),
      if_pos comesBack]
    exact ihNext directNext (fun _ => rfl) (fun h => by rw [hNext] at h; cases h) more
  | callFinish _ _ popped _ _ _ ihCallee =>
    obtain ⟨n, rfl⟩ := before rfl
    obtain ⟨-, directCallee, -⟩ := direct
    rw [Progress.takeCallOperand_operand] at popped
    cases popped
    have hCallee := Execution.startsWithCall_of_direct directCallee
    rw [Execution.flatten, List.append_assoc,
      ihCallee directCallee (fun _ => rfl) (fun h => by rw [hCallee] at h; cases h)]
    rfl

/-- **Flattening keeps what a charstring decodes to.** A charstring that decodes executes some of
its bytes, all of them if no operator ends it. If each call directly follows its operand, then
decoding the flattened bytes, whatever comes after the operator that ends them and whatever
subroutines there are, makes the same instructions. -/
theorem decode_flatten {sets : SubroutineSets} {charstring : List UInt8} {list : List Instruction}
    (h : decode sets charstring = .ok list) :
    (∃ x e p rest, Executes sets nestingLimit charstring {} x e p ∧
      charstring = x.source ++ rest ∧ (e = .exhausted → rest = [])) ∧
    ∀ x e p, Executes sets nestingLimit charstring {} x e p → x.Direct false →
      ∀ others after, (e = .exhausted → after = []) →
        decode others (x.flatten false ++ after) = .ok list := by
  have decoded {others : SubroutineSets} {bytes : List UInt8} {e : Ending} {p : Progress}
      (hp : decodeNested sets nestingLimit charstring {} = .ok (e, p))
      (hq : decodeNested others nestingLimit bytes {} = .ok (e, p)) :
      decode others bytes = .ok list := by
    rw [← h, decode, decode, hp, hq]
  refine ⟨?_, fun x e p hx direct others after all => decoded (decodeNested_of_executes hx) ?_⟩
  · cases hd : decodeNested sets nestingLimit charstring {} with
    | error fault => rw [decode, hd] at h; cases h
    | ok ending =>
      obtain ⟨e, p⟩ := ending
      obtain ⟨x, hx⟩ := executes_of_decodeNested hd
      obtain ⟨rest, source, all⟩ := hx.source
      exact ⟨x, e, p, rest, hx, source, all⟩
  · have start := Execution.startsWithCall_of_direct direct
    rw [decodeNested_eq, decodeBytes_flatten hx direct (fun _ => rfl)
      (fun call => by rw [start] at call; cases call)]
    cases e with
    | exhausted => rw [all rfl, decodeBytes]; rfl
    | returned => rfl
    | finished => rfl

/-- A subroutine of the Private DICT moves, calls a subroutine of all fonts, which draws a line and
comes back, and ends the glyph. What follows is as good as not there. -/
theorem decode_flatten_nested :
    let sets : SubroutineSets :=
      ⟨⟨⟨#[1, 5], #[149, 159, 5, 11]⟩⟩, some ⟨⟨#[1, 6], #[139, 22, 32, 29, 14]⟩⟩⟩
    let list : List Instruction :=
      [.int 0, .plain (.move .hmoveto), .int 10, .int 20, .plain (.draw .rlineto), .plain .endchar]
    ∃ x p, Executes sets nestingLimit [32, 10, 5] {} x .finished p ∧ x.Direct false ∧
      decode sets [32, 10, 5] = .ok list ∧ x.flatten false = [139, 22, 149, 159, 5, 14] ∧
      decode ⟨⟨.empty⟩, none⟩ (x.flatten false ++ [5]) = .ok list := by
  intro sets list
  let line : Execution := .token (.operand (.int 10)) [149] (.token (.operand (.int 20)) [159]
    (.token (.draw .rlineto) [5] (.token .ret [11] .stop)))
  let move : Execution := .token (.operand (.int 0)) [139] (.token (.move .hmoveto) [22]
    (.token (.operand (.int (-107))) [32] (.call [29] line (.token .endchar [14] .stop))))
  let x : Execution := .token (.operand (.int (-107))) [32] (.call [10] move .stop)
  have popped (p : Progress) := p.takeCallOperand_operand (-107)
  have found : Subroutines.get ⟨⟨#[1, 5], #[149, 159, 5, 11]⟩⟩ (-107 : Int16).toInt32 =
      .ok [149, 159, 5, 11] := rfl
  have hline (p : Progress) : Executes sets 7 [149, 159, 5, 11] p line .returned
      (((p.operand (.int 10)).operand (.int 20)).draw .rlineto) :=
    .go rfl rfl rfl rfl (.go rfl rfl rfl rfl (.go rfl rfl rfl rfl (.stop rfl rfl rfl rfl)))
  obtain ⟨p, hx, made⟩ : ∃ p, Executes sets nestingLimit [32, 10, 5] {} x .finished p ∧
      p.instructions = list :=
    ⟨_, .go rfl rfl rfl rfl (.callFinish rfl rfl (popped _) rfl rfl (.go rfl rfl rfl rfl
      (.go rfl rfl rfl rfl (.go rfl rfl rfl rfl (.callBack rfl rfl (popped _) rfl found (hline _)
        (by decide) (.stop rfl rfl rfl rfl)))))), rfl⟩
  have direct : x.Direct false := ⟨rfl, ⟨rfl, trivial, trivial⟩, trivial⟩
  have h : decode sets [32, 10, 5] = .ok list := by rw [decode_of_executes hx, made]
  exact ⟨x, p, hx, direct, h, rfl,
    (decode_flatten h).2 x .finished p hx direct _ [5] (fun h => by cases h)⟩

end CompactFont.Charstring
