import CompactFont.Proofs.Charstring.Execution

/-!
# Bytes that spell tokens

A charstring often begins with tokens that are known, in bytes that need not be: there are several
ways to write an integer. `Spells tokens bytes` says that the bytes are those of the tokens, whatever
ways are chosen. Decoding takes such bytes token by token, and operands all at once
(`decodeBytes_operands`). The bytes of a mask belong to no token; they come after the bytes that
spell the mask operator.
-/

namespace CompactFont.Charstring

/-- The bytes are those of the tokens, one after the other. -/
inductive Spells : List Token → List UInt8 → Prop where
  /-- There are none. -/
  | nil : Spells [] []
  /-- A token, and those after it. -/
  | cons {token : Token} {tokens : List Token} {b : UInt8} {bytes rest : List UInt8}
      (read : Token.readAfter b bytes = .ok (token, rest)) (next : Spells tokens rest) :
      Spells (token :: tokens) (b :: bytes)

/-- Pushes operands, the first one first. -/
def Progress.operands (p : Progress) (values : List Operand) : Progress :=
  values.foldl Progress.operand p

/-! ### Operands that are pushed -/

namespace Progress

@[simp] theorem made_operands (p : Progress) (values : List Operand) :
    (p.operands values).made = (values.map Operand.load).reverse ++ p.made := by
  induction values generalizing p with
  | nil => rfl
  | cons value values ih =>
    rw [operands, List.foldl_cons, ← operands, ih]
    simp [operand, make]

end Progress

/-! ### Decoding spelled tokens -/

variable {sets : SubroutineSets} {run : Option (List UInt8 → Progress → Decoded)}

/-- The first token is read off the bytes, whatever comes after them. -/
theorem Spells.exists_readAfter {token : Token} {tokens : List Token} {bytes : List UInt8}
    (h : Spells (token :: tokens) bytes) :
    ∃ b taken left, bytes = b :: taken ∧ Spells tokens left ∧
      ∀ more, Token.readAfter b (taken ++ more) = .ok (token, left ++ more) := by
  cases h with
  | @cons _ _ b taken left read next =>
    obtain ⟨front, rfl, hread⟩ := Token.exact_readAfter b _ _ _ read
    refine ⟨b, _, left, rfl, next, fun more => ?_⟩
    rw [List.append_assoc]
    exact hread (left ++ more)

/-- Bytes that spell operands push them. -/
theorem decodeBytes_operands {values : List Operand} {tokens : List Token} {bytes : List UInt8}
    (h : Spells (values.map Token.operand ++ tokens) bytes) :
    ∃ left, Spells tokens left ∧ ∀ more p, decodeBytes sets run (bytes ++ more) p =
      decodeBytes sets run (left ++ more) (p.operands values) := by
  induction values generalizing bytes with
  | nil => exact ⟨bytes, h, fun more p => rfl⟩
  | cons value values ih =>
    obtain ⟨b, taken, left, rfl, spelled, read⟩ := h.exists_readAfter
    obtain ⟨left', spelled', next⟩ := ih spelled
    refine ⟨left', spelled', fun more p => ?_⟩
    rw [List.cons_append, decodeBytes_go (read more) rfl, next]
    rfl

/-- A token that is spelled is performed, with the bytes after it. Either it comes to the end, or
decoding goes on from what it leads to. -/
theorem exists_perform_of_spells {token : Token} {tokens : List Token} {bytes more : List UInt8}
    {p q : Progress} {e : Ending} (h : Spells (token :: tokens) bytes)
    (hd : decodeBytes sets run (bytes ++ more) p = .ok (e, q)) :
    ∃ left next, Spells tokens left ∧ perform sets run token p (left ++ more) = .ok next ∧
      (next = .stop e q ∨
        ∃ r after, next = .go r after ∧ decodeBytes sets run after r = .ok (e, q)) := by
  obtain ⟨b, taken, left, rfl, spelled, read⟩ := h.exists_readAfter
  rw [List.cons_append, decodeBytes_read (read more)] at hd
  split at hd
  · cases hd
  · rename_i hp
    cases hd
    exact ⟨left, _, spelled, hp, .inl rfl⟩
  · rename_i r after hp
    exact ⟨left, _, spelled, hp, .inr ⟨r, after, rfl, hd⟩⟩

/-- What decoding keeps is kept from after a token up to the end. -/
theorem Progress.Invariant.next {P : Progress → Prop} (h : Invariant P) {calls : Nat} {next : Next}
    {q : Progress} {e : Ending} (hp : P next.progress)
    (hd : next = .stop e q ∨ ∃ r after, next = .go r after ∧
      Charstring.decodeBytes sets (nestedRun sets calls) after r = .ok (e, q)) : P q := by
  rcases hd with rfl | ⟨r, after, rfl, hd⟩
  · exact hp
  · rw [← decodeNested_eq] at hd
    exact h.decodeNested hd hp

/-! ### Decoding a whole charstring -/

/-- A charstring that decodes comes to an ending, and gives the instructions that were made; the
operator that ends a subroutine is one of them if it was met. -/
theorem decode_eq_ok {charstring : List UInt8} {list : List Instruction}
    (h : decode sets charstring = .ok list) :
    ∃ e p q, decodeBytes sets (nestedRun sets nestingLimit) charstring {} = .ok (e, p) ∧
      (q = p ∨ q = p.make (.plain .ret)) ∧ list = q.instructions := by
  rw [← decodeNested_eq]
  unfold decode at h
  split at h
  · cases h
  · rename_i p hp
    cases h
    exact ⟨_, p, _, hp, .inr rfl, rfl⟩
  · rename_i e p _ hp
    cases h
    exact ⟨e, p, p, hp, .inl rfl, rfl⟩

end CompactFont.Charstring
