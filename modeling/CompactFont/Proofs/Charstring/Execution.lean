import CompactFont.Proofs.Charstring.Invariant

/-!
# Executions

What is executed of a charstring, as a tree: tokens in order, and under each call what is executed
of the subroutine (`Execution`). `Executes` says which execution some bytes have, to which ending
they come, and what is known there. It describes decoding by rules instead of a recursion on bytes;
the two agree (`decodeNested_of_executes`, `executes_of_decodeNested`).

The execution keeps the bytes of each token, with those of the mask after a mask operator. Together
they are the bytes that were executed, up to the ending (`Executes.source`).
-/

namespace CompactFont.Charstring

/-! ### Tokens -/

/-- The token pushes an integer. -/
def Token.isInt : Token → Bool
  | .operand (.int _) => true
  | _ => false

/-- The token calls a subroutine. -/
def Token.isCall : Token → Bool
  | .call _ => true
  | _ => false

theorem Token.isCall_eq_true {token : Token} (h : token.isCall = true) :
    ∃ scope, token = .call scope := by
  cases token <;> first | exact ⟨_, rfl⟩ | cases h

theorem Token.exact_readAfter (b : UInt8) : Exact (Token.readAfter b) := by
  unfold Token.readAfter
  repeat' split
  all_goals
    first
    | exact Exact.map (Exact.read _) _
    | exact Exact.pure _

theorem Progress.exact_maskBytes (p : Progress) : Exact p.maskBytes := by
  unfold Progress.maskBytes
  split
  · exact Exact.take _
  · exact Exact.throw _

/-- What a token leads to, if it is no call, depends on no subroutines, and on no bytes but those
that it takes. -/
theorem perform_eq_go {sets : SubroutineSets} {run : Option (List UInt8 → Progress → Decoded)}
    {token : Token} {p q : Progress} {rest left : List UInt8} (noCall : token.isCall = false)
    (h : perform sets run token p rest = .ok (.go q left)) :
    ∃ front, rest = front ++ left ∧
      ∀ sets run more, perform sets run token p (front ++ more) = .ok (.go q more) := by
  have same {r : Except FontFault Progress} (h : (Next.go · rest) <$> r = .ok (.go q left)) :
      rest = left ∧ ∀ more, (Next.go · more) <$> r = .ok (.go q more) := by
    obtain ⟨q, rfl, h⟩ := map_eq_ok.mp h
    cases h
    exact ⟨rfl, fun more => rfl⟩
  cases token with
  | operand value => cases h; exact ⟨[], rfl, fun _ _ _ => rfl⟩
  | reserved => cases h; exact ⟨[], rfl, fun _ _ _ => rfl⟩
  | escaped operator =>
    obtain ⟨rfl, go⟩ := same h
    exact ⟨[], rfl, fun _ _ more => go more⟩
  | stem kind =>
    obtain ⟨rfl, go⟩ := same h
    exact ⟨[], rfl, fun _ _ more => go more⟩
  | move kind =>
    obtain ⟨rfl, go⟩ := same h
    exact ⟨[], rfl, fun _ _ more => go more⟩
  | draw kind => cases h; exact ⟨[], rfl, fun _ _ _ => rfl⟩
  | mask kind =>
    obtain ⟨r, bytes, left', hr, hbytes, hq⟩ := perform_mask_eq_ok h
    cases hq
    obtain ⟨front, rfl, hfront⟩ := Progress.exact_maskBytes _ _ _ _ hbytes
    exact ⟨front, rfl, fun _ _ more => by simp only [perform, hr, hfront]⟩
  | endchar =>
    obtain ⟨r, -, h⟩ := map_eq_ok.mp h
    cases h
  | ret => cases h
  | call scope => cases noCall

/-- Only the operators that end a subroutine and the glyph lead to an end, if there are no calls. -/
theorem perform_eq_stop {sets : SubroutineSets} {run : Option (List UInt8 → Progress → Decoded)}
    {token : Token} {p q : Progress} {rest : List UInt8} {e : Ending}
    (noCall : token.isCall = false) (h : perform sets run token p rest = .ok (.stop e q)) :
    (token = .endchar ∧ e = .finished ∨ token = .ret ∧ e = .returned ∧ q = p) ∧
      ∀ sets run more, perform sets run token p more = .ok (.stop e q) := by
  have never {r : Except FontFault Progress} {C : Prop}
      (h : (Next.go · rest) <$> r = .ok (.stop e q)) : C := by
    obtain ⟨r, -, h⟩ := map_eq_ok.mp h
    cases h
  cases token with
  | operand value => cases h
  | reserved => cases h
  | escaped operator => exact never h
  | stem kind => exact never h
  | move kind => exact never h
  | draw kind => cases h
  | mask kind =>
    obtain ⟨_, _, _, -, -, hq⟩ := perform_mask_eq_ok h
    cases hq
  | endchar =>
    obtain ⟨r, hr, he⟩ := map_eq_ok.mp h
    cases he
    exact ⟨.inl ⟨rfl, rfl⟩, fun _ _ _ => h⟩
  | ret => cases h; exact ⟨.inr ⟨rfl, rfl, rfl⟩, fun _ _ _ => rfl⟩
  | call scope => cases noCall

/-! ### Executions -/

/-- What is executed of some bytes. -/
inductive Execution where
  /-- Nothing more. -/
  | stop
  /-- A token, and the bytes that it took. -/
  | token (token : Token) (bytes : List UInt8) (next : Execution)
  /-- A call, the bytes of its operator, and what is executed of the subroutine. -/
  | call (bytes : List UInt8) (callee next : Execution)

/-- The bytes that were executed, those of subroutines apart. -/
def Execution.source : Execution → List UInt8
  | .stop => []
  | .token _ bytes next => bytes ++ next.source
  | .call bytes _ next => bytes ++ next.source

/-- `Executes sets calls bytes p x e q`: from `bytes`, where `p` is known and so many calls can
still be nested, `x` is executed; it comes to the ending `e`, where `q` is known. -/
inductive Executes (sets : SubroutineSets) :
    Nat → List UInt8 → Progress → Execution → Ending → Progress → Prop where
  /-- No bytes are left. -/
  | exhausted {calls : Nat} {p : Progress} : Executes sets calls [] p .stop .exhausted p
  /-- A token goes on to more bytes. -/
  | go {calls : Nat} {b : UInt8} {bytes taken rest left : List UInt8} {token : Token}
      {p q r : Progress} {x : Execution} {e : Ending}
      (read : Token.readAfter b bytes = .ok (token, rest)) (noCall : token.isCall = false)
      (performed : perform sets none token p rest = .ok (.go q left))
      (split : b :: bytes = taken ++ left) (next : Executes sets calls left q x e r) :
      Executes sets calls (b :: bytes) p (.token token taken x) e r
  /-- A token comes to an end. -/
  | stop {calls : Nat} {b : UInt8} {bytes taken rest : List UInt8} {token : Token}
      {p q : Progress} {e : Ending}
      (read : Token.readAfter b bytes = .ok (token, rest)) (noCall : token.isCall = false)
      (performed : perform sets none token p rest = .ok (.stop e q))
      (split : b :: bytes = taken ++ rest) :
      Executes sets calls (b :: bytes) p (.token token taken .stop) e q
  /-- A call comes back from the subroutine. -/
  | callBack {calls : Nat} {b : UInt8} {bytes taken rest subroutine : List UInt8}
      {scope : SubrScope} {operand : Int32} {subroutines : Subroutines} {p p' q r : Progress}
      {x y : Execution} {e e' : Ending}
      (read : Token.readAfter b bytes = .ok (.call scope, rest))
      (split : b :: bytes = taken ++ rest)
      (popped : p.takeCallOperand = .ok (operand, p')) (known : sets.get scope = .ok subroutines)
      (found : subroutines.get operand = .ok subroutine)
      (callee : Executes sets calls subroutine p' y e' q) (back : e' ≠ .finished)
      (next : Executes sets (calls + 1) rest q x e r) :
      Executes sets (calls + 1) (b :: bytes) p (.call taken y x) e r
  /-- A call ends the glyph. -/
  | callFinish {calls : Nat} {b : UInt8} {bytes taken rest subroutine : List UInt8}
      {scope : SubrScope} {operand : Int32} {subroutines : Subroutines} {p p' q : Progress}
      {y : Execution}
      (read : Token.readAfter b bytes = .ok (.call scope, rest))
      (split : b :: bytes = taken ++ rest)
      (popped : p.takeCallOperand = .ok (operand, p')) (known : sets.get scope = .ok subroutines)
      (found : subroutines.get operand = .ok subroutine)
      (callee : Executes sets calls subroutine p' y .finished q) :
      Executes sets (calls + 1) (b :: bytes) p (.call taken y .stop) .finished q

/-- An execution takes bytes from the front, and all of them if it is not ended by an operator. -/
theorem Executes.source {sets : SubroutineSets} {calls : Nat} {bytes : List UInt8}
    {p q : Progress} {x : Execution} {e : Ending} (h : Executes sets calls bytes p x e q) :
    ∃ rest, bytes = x.source ++ rest ∧ (e = .exhausted → rest = []) := by
  induction h with
  | exhausted => exact ⟨[], rfl, fun _ => rfl⟩
  | go _ _ _ split _ ih =>
    obtain ⟨rest, hrest, all⟩ := ih
    exact ⟨rest, by rw [split, hrest, Execution.source, List.append_assoc], all⟩
  | @stop _ _ _ _ rest _ _ _ _ _ noCall performed split =>
    refine ⟨rest, by simp [Execution.source, split], fun he => ?_⟩
    rcases (perform_eq_stop noCall performed).1 with ⟨-, h⟩ | ⟨-, h, -⟩
    · rw [h] at he; cases he
    · rw [h] at he; cases he
  | callBack _ split _ _ _ _ _ _ _ ih =>
    obtain ⟨rest, hrest, all⟩ := ih
    exact ⟨rest, by rw [split, hrest, Execution.source, List.append_assoc], all⟩
  | @callFinish _ _ _ _ rest _ _ _ _ _ _ _ _ _ split =>
    exact ⟨rest, by simp [Execution.source, split], fun he => by cases he⟩

/-! ### Decoding executes -/

variable {sets : SubroutineSets} {run : Option (List UInt8 → Progress → Decoded)}

theorem decodeBytes_read {b : UInt8} {bytes rest : List UInt8} {token : Token} {p : Progress}
    (read : Token.readAfter b bytes = .ok (token, rest)) :
    decodeBytes sets run (b :: bytes) p =
      match perform sets run token p rest with
      | .error fault => .error fault
      | .ok (.stop e q) => .ok (e, q)
      | .ok (.go q left) => decodeBytes sets run left q := by
  rw [decodeBytes]
  split
  · rename_i fault hread
    rw [read] at hread
    cases hread
  · rename_i hread
    rw [read] at hread
    cases hread
    split
    all_goals
      rename_i hp
      simp only [hp]

theorem decodeBytes_unread {b : UInt8} {bytes : List UInt8} {fault : ReadFault}
    (read : Token.readAfter b bytes = .error fault) (p : Progress) :
    decodeBytes sets run (b :: bytes) p = .error (.read fault) := by
  rw [decodeBytes]
  split
  · rename_i hread
    rw [read] at hread
    cases hread
    rfl
  · rename_i hread
    rw [read] at hread
    cases hread

theorem decodeBytes_go {b : UInt8} {bytes rest left : List UInt8} {token : Token} {p q : Progress}
    (read : Token.readAfter b bytes = .ok (token, rest))
    (performed : perform sets run token p rest = .ok (.go q left)) :
    decodeBytes sets run (b :: bytes) p = decodeBytes sets run left q := by
  rw [decodeBytes_read read, performed]

theorem decodeBytes_stop {b : UInt8} {bytes rest : List UInt8} {token : Token} {p q : Progress}
    {e : Ending} (read : Token.readAfter b bytes = .ok (token, rest))
    (performed : perform sets run token p rest = .ok (.stop e q)) :
    decodeBytes sets run (b :: bytes) p = .ok (e, q) := by
  rw [decodeBytes_read read, performed]

/-- A call that is performed leads on, or to the end of the glyph if its subroutine does. -/
theorem perform_call_eq_ok {scope : SubrScope} {p : Progress} {rest : List UInt8} {next : Next}
    (h : perform sets run (.call scope) p rest = .ok next) :
    ∃ e q, call sets run scope p = .ok (e, q) ∧
      next = if e = .finished then .stop .finished q else .go q rest := by
  simp only [perform] at h
  split at h
  · cases h
  · rename_i q hc
    cases h
    exact ⟨.finished, q, hc, rfl⟩
  · rename_i e q hne hc
    cases h
    exact ⟨e, q, hc, (if_neg hne).symm⟩

section

variable {scope : SubrScope} {operand : Int32} {subroutines : Subroutines}
  {subroutine rest : List UInt8} {p p' q : Progress} {e : Ending}
  {f : List UInt8 → Progress → Decoded}

theorem call_eq (popped : p.takeCallOperand = .ok (operand, p'))
    (known : sets.get scope = .ok subroutines) (found : subroutines.get operand = .ok subroutine) :
    call sets (some f) scope p = f subroutine p' := by
  simp only [call, popped, known, found, bind, Except.bind]

theorem perform_call_back (popped : p.takeCallOperand = .ok (operand, p'))
    (known : sets.get scope = .ok subroutines) (found : subroutines.get operand = .ok subroutine)
    (callee : f subroutine p' = .ok (e, q)) (back : e ≠ .finished) :
    perform sets (some f) (.call scope) p rest = .ok (.go q rest) := by
  simp only [perform, call_eq popped known found, callee]

theorem perform_call_finish (popped : p.takeCallOperand = .ok (operand, p'))
    (known : sets.get scope = .ok subroutines) (found : subroutines.get operand = .ok subroutine)
    (callee : f subroutine p' = .ok (.finished, q)) :
    perform sets (some f) (.call scope) p rest = .ok (.stop .finished q) := by
  simp only [perform, call_eq popped known found, callee]

end

/-- What decodes the bytes of a subroutine, where so many calls can be nested. -/
def nestedRun (sets : SubroutineSets) : (calls : Nat) → Option (List UInt8 → Progress → Decoded)
  | 0 => none
  | calls + 1 => some (decodeNested sets calls)

theorem decodeNested_eq (sets : SubroutineSets) (calls : Nat) :
    decodeNested sets calls = decodeBytes sets (nestedRun sets calls) := by
  cases calls <;> rfl

/-- Decoding comes to the ending of an execution. -/
theorem decodeNested_of_executes {calls : Nat} {bytes : List UInt8} {p q : Progress}
    {x : Execution} {e : Ending} (h : Executes sets calls bytes p x e q) :
    decodeNested sets calls bytes p = .ok (e, q) := by
  induction h with
  | exhausted => rw [decodeNested_eq, decodeBytes]
  | go read noCall performed split next ih =>
    obtain ⟨front, rfl, hperform⟩ := perform_eq_go noCall performed
    rw [decodeNested_eq, decodeBytes_go read (hperform sets _ _), ← decodeNested_eq, ih]
  | stop read noCall performed split =>
    rw [decodeNested_eq, decodeBytes_stop read ((perform_eq_stop noCall performed).2 sets _ _)]
  | callBack read split popped known found _ back _ ihCallee ihNext =>
    rw [decodeNested_eq, nestedRun,
      decodeBytes_go read (perform_call_back popped known found ihCallee back), ← nestedRun,
      ← decodeNested_eq, ihNext]
  | callFinish read split popped known found _ ihCallee =>
    rw [decodeNested_eq, nestedRun,
      decodeBytes_stop read (perform_call_finish popped known found ihCallee)]

/-- A charstring that is ended by the end of the glyph is decoded to what was made there. -/
theorem decode_of_executes {charstring : List UInt8} {p : Progress} {x : Execution}
    (h : Executes sets nestingLimit charstring {} x .finished p) :
    decode sets charstring = .ok p.instructions := by
  rw [decode, decodeNested_of_executes h]

/-- What decodes the bytes of subroutines executes them, with one call less to be nested. -/
def RunExecutes (sets : SubroutineSets) (run : Option (List UInt8 → Progress → Decoded))
    (calls : Nat) : Prop :=
  ∀ f, run = some f → ∃ inner, calls = inner + 1 ∧
    ∀ bytes p e q, f bytes p = .ok (e, q) → ∃ y, Executes sets inner bytes p y e q

theorem executes_of_call {calls : Nat} {scope : SubrScope} {p q : Progress} {e : Ending}
    (hrun : RunExecutes sets run calls) (h : call sets run scope p = .ok (e, q)) :
    ∃ inner operand p' subroutines subroutine y, calls = inner + 1 ∧
      p.takeCallOperand = .ok (operand, p') ∧ sets.get scope = .ok subroutines ∧
      subroutines.get operand = .ok subroutine ∧ Executes sets inner subroutine p' y e q := by
  obtain ⟨operand, p', subroutines, f, subroutine, popped, known, hf, found, hcallee⟩ :=
    call_eq_ok h
  obtain ⟨inner, hcalls, hinner⟩ := hrun f hf
  obtain ⟨y, callee⟩ := hinner _ _ _ _ hcallee
  exact ⟨inner, operand, p', subroutines, subroutine, y, hcalls, popped, known, found, callee⟩

/-- What decodes bytes executes them, if what decodes the bytes of subroutines does. -/
theorem executes_of_decodeBytes {calls : Nat} {bytes : List UInt8} {p q : Progress} {e : Ending}
    (hrun : RunExecutes sets run calls) (h : decodeBytes sets run bytes p = .ok (e, q)) :
    ∃ x, Executes sets calls bytes p x e q := by
  fun_induction decodeBytes sets run bytes p with
  | case1 p => cases h; exact ⟨_, .exhausted⟩
  | case2 p b bytes fault ht => cases h
  | case3 p b bytes token rest ht fault hn => cases h
  | case4 p b bytes token rest ht e' p' hn =>
    cases h
    obtain ⟨taken, htaken, -⟩ := Token.exact_readAfter b _ _ _ ht
    have split : b :: bytes = (b :: taken) ++ rest := by rw [htaken, List.cons_append]
    cases hc : token.isCall with
    | false => exact ⟨_, .stop ht hc ((perform_eq_stop hc hn).2 sets none rest) split⟩
    | true =>
      obtain ⟨scope, rfl⟩ := Token.isCall_eq_true hc
      obtain ⟨e', q', hcall, hnext⟩ := perform_call_eq_ok hn
      obtain ⟨inner, operand, p'', subroutines, subroutine, y, rfl, popped, known, found, callee⟩ :=
        executes_of_call hrun hcall
      split at hnext
      · rename_i he
        cases hnext
        subst he
        exact ⟨_, .callFinish ht split popped known found callee⟩
      · cases hnext
  | case5 p b bytes token rest ht p' left hn _ _ ih =>
    obtain ⟨x, next⟩ := ih h
    obtain ⟨taken, htaken, -⟩ := Token.exact_readAfter b _ _ _ ht
    cases hc : token.isCall with
    | false =>
      obtain ⟨front, hfront, hperform⟩ := perform_eq_go hc hn
      have split : b :: bytes = (b :: taken ++ front) ++ left := by
        rw [htaken, hfront, List.append_assoc, List.cons_append]
      exact ⟨_, .go ht hc (hfront ▸ hperform sets none left) split next⟩
    | true =>
      obtain ⟨scope, rfl⟩ := Token.isCall_eq_true hc
      obtain ⟨e', q', hcall, hnext⟩ := perform_call_eq_ok hn
      obtain ⟨inner, operand, p'', subroutines, subroutine, y, rfl, popped, known, found, callee⟩ :=
        executes_of_call hrun hcall
      have split : b :: bytes = (b :: taken) ++ rest := by rw [htaken, List.cons_append]
      split at hnext
      · cases hnext
      · rename_i he
        cases hnext
        exact ⟨_, .callBack ht split popped known found callee he next⟩

/-- What decoding comes to without a fault, it comes to by an execution. -/
theorem executes_of_decodeNested {calls : Nat} {bytes : List UInt8} {p q : Progress} {e : Ending}
    (h : decodeNested sets calls bytes p = .ok (e, q)) :
    ∃ x, Executes sets calls bytes p x e q := by
  induction calls generalizing bytes p q e with
  | zero => exact executes_of_decodeBytes (fun f hf => by cases hf) h
  | succ calls ih =>
    refine executes_of_decodeBytes (fun f hf => ⟨calls, rfl, ?_⟩) h
    cases hf
    exact fun bytes p e q h => ih h

end CompactFont.Charstring
