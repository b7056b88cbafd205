import CompactFont.Proofs.Dict.Written

/-!
# Entries are independent

The entries of a DICT do not depend on each other. A token is told by its own bytes, so that tokens go on
to be read whatever comes after them (`tokens_append_of_ok`), and an operator takes or drops all operands
before it, so that nothing is left for the tokens after it (`entriesOf_append`).

Where the bytes end with an operator, a DICT can therefore be parted: what comes after them is read by
itself, with its entries or its fault. And there an entry that is dropped can be put in or left out, with
its operands, without any change to the others (`ofBytes_append_of_endsEntry`).
-/

namespace CompactFont

/-- An operator that is found by a key has that key. -/
theorem Operator.key_eq_of_ofKey? {key : UInt16} {op : Operator} (h : ofKey? key = some op) :
    op.key = key := by
  unfold ofKey? at h
  simpa using List.find?_some h

namespace Dict

/-! ### Tokens -/

theorem Token.exact_readAfter (b : UInt8) : Exact (Token.readAfter b) := by
  unfold Token.readAfter
  repeat' split
  all_goals
    first
    | exact Exact.map (Exact.read _) _
    | exact Exact.map (Exact.untilNibble _) _
    | exact Exact.pure _
    | exact Exact.throw _

/-- A token that is read is written in the bytes that it takes. -/
theorem Token.exists_written {b : UInt8} {bytes rest : List UInt8} {token : Token}
    (read : Token.readAfter b bytes = .ok (token, rest)) :
    ∃ taken, b :: bytes = taken ++ rest ∧ token.Written taken := by
  obtain ⟨front, rfl, each⟩ := Token.exact_readAfter b _ _ _ read
  exact ⟨b :: front, rfl, b, front, rfl, each⟩

/-- Bytes that are made of tokens are so whatever comes after them. -/
theorem tokens_append_of_ok {bytes : List UInt8} {found : List Token} (h : tokens bytes = .ok found)
    (more : List UInt8) : tokens (bytes ++ more) = (found ++ ·) <$> tokens more := by
  fun_induction tokens bytes generalizing found with
  | case1 =>
    cases h
    cases hmore : tokens more <;> simp [hmore]
  | case2 b bytes fault hread => cases h
  | case3 b bytes token rest hread _ fault hrest ih => cases h
  | case4 b bytes token rest hread _ others hrest ih =>
    cases h
    obtain ⟨taken, split, written⟩ := Token.exists_written hread
    rw [split, List.append_assoc, tokens_append written, ih hrest]
    cases tokens more <;> rfl

/-! ### Entries -/

/-- An operator leaves no operand to the tokens after it. -/
theorem entriesOf_append (held : List Operand) (front : List Token) (key : UInt16) (more : List Token) :
    entriesOf held (front ++ .operator key :: more) =
      entriesOf held (front ++ [.operator key]) ++ entriesOf [] more := by
  induction front generalizing held with
  | nil =>
    simp only [List.nil_append, entriesOf]
    split
    · split <;> rfl
    · rfl
  | cons token front ih =>
    cases token with
    | operand value => exact ih (held ++ [value])
    | operator other =>
      simp only [List.cons_append, entriesOf]
      split
      · split
        · rw [ih, List.cons_append]
        · exact ih []
      · exact ih []

/-! ### DICTs -/

/-- The last token of the bytes, if there is one, is an operator. -/
def EndsEntry (bytes : List UInt8) : Prop :=
  ∀ found, tokens bytes = .ok found → ∀ token ∈ found.getLast?, ∃ key, token = .operator key

/-- The bytes are operands and the key of an operator, and no operator with this key accepts so many. -/
def IsDropped (bytes : List UInt8) : Prop :=
  ∃ (values : List Operand) (key : UInt16),
    tokens bytes = .ok (values.map .operand ++ [.operator key]) ∧
      ∀ op : Operator, op.key = key → op.kind.accepts values.length = false

theorem ofBytes_eq (kind : DictKind) (bytes : List UInt8) :
    ofBytes kind bytes = (fun found => ⟨kind, entriesOf [] found⟩) <$> tokens bytes := by
  rw [ofBytes]
  cases tokens bytes <;> rfl

/-- What is read after an operator adds its entries to those before it. -/
theorem entriesOf_append_of_getLast? {found : List Token}
    (ends : ∀ token ∈ found.getLast?, ∃ key, token = .operator key) (more : List Token) :
    entriesOf [] (found ++ more) = entriesOf [] found ++ entriesOf [] more := by
  rcases List.eq_nil_or_concat found with rfl | ⟨front, token, rfl⟩
  · rfl
  · obtain ⟨key, rfl⟩ := ends token (by simp)
    rw [List.concat_eq_append, List.append_assoc]
    exact entriesOf_append [] front key more

/-- An entry that no operator takes is dropped. -/
theorem entriesOf_dropped {values : List Operand} {key : UInt16}
    (none : ∀ op : Operator, op.key = key → op.kind.accepts values.length = false) (more : List Token) :
    entriesOf [] (values.map .operand ++ .operator key :: more) = entriesOf [] more := by
  rw [entriesOf_operands, List.nil_append, entriesOf]
  split
  · rename_i op found
    rw [none op (Operator.key_eq_of_ofKey? found)]
    rfl
  · rfl

/-- **Entries are independent.** After bytes that end with an operator, other bytes are read as if they were
alone: their entries come after those that were read before, and their fault is the fault. And an entry that
is dropped can stand there, with its operands, as if it did not. -/
theorem ofBytes_append_of_endsEntry {kind : DictKind} {bytes : List UInt8} {d : Dict}
    (read : ofBytes kind bytes = .ok d) (ends : EndsEntry bytes) :
    (∀ more, ofBytes kind (bytes ++ more) =
      (fun e => ⟨kind, d.entries ++ e.entries⟩) <$> ofBytes kind more) ∧
    ∀ dropped, IsDropped dropped → ∀ more,
      ofBytes kind (bytes ++ dropped ++ more) = ofBytes kind (bytes ++ more) := by
  rw [ofBytes_eq] at read
  obtain ⟨found, hfound, rfl⟩ := map_eq_ok.mp read
  have last := ends found hfound
  have appended (more : List UInt8) : ofBytes kind (bytes ++ more) =
      (fun others => ⟨kind, entriesOf [] found ++ entriesOf [] others⟩) <$> tokens more := by
    rw [ofBytes_eq, tokens_append_of_ok hfound]
    cases tokens more with
    | error fault => rfl
    | ok others =>
      show Except.ok (Dict.mk kind (entriesOf [] (found ++ others))) = _
      rw [entriesOf_append_of_getLast? last]
      rfl
  refine ⟨fun more => ?_, fun dropped isDropped more => ?_⟩
  · rw [appended, ofBytes_eq]
    cases tokens more <;> rfl
  · obtain ⟨values, key, hdropped, none⟩ := isDropped
    rw [List.append_assoc, appended, appended, tokens_append_of_ok hdropped]
    cases tokens more with
    | error fault => rfl
    | ok others =>
      show Except.ok (Dict.mk kind (entriesOf [] found ++ entriesOf [] (_ ++ others))) = _
      rw [List.append_assoc, List.singleton_append, entriesOf_dropped none]
      rfl

/-- After an entry, a known operator with two operands where it takes one, and an escaped operator that is
not known, change nothing; the operator that follows keeps its one operand. -/
theorem ofBytes_append_of_endsEntry_refused :
    let bytes : List UInt8 := [140, 12, 1]
    let refused : List UInt8 := [30, 0x1c, 0x1f, 139, 17]
    let unknown : List UInt8 := [28, 12, 1, 12, 50]
    ofBytes .top bytes = .ok ⟨.top, [(.isFixedPitch, [.integer 1])]⟩ ∧ EndsEntry bytes ∧
      IsDropped refused ∧ IsDropped unknown ∧
      ofBytes .top (bytes ++ refused ++ unknown ++ [250, 255, 17]) =
        .ok ⟨.top, [(.isFixedPitch, [.integer 1]), (.charStrings, [.integer 1131])]⟩ := by
  intro bytes refused unknown
  have tokens_bytes : tokens bytes = .ok [.operand (.integer 1), .operator 3073] := by cbv
  have tokens_refused : tokens refused =
      .ok [.operand (.real [0x1c, 0x1f]), .operand (.integer 0), .operator 17] := by cbv
  have tokens_unknown : tokens unknown = .ok [.operand (.integer 3073), .operator 3122] := by cbv
  have read : ofBytes .top bytes = .ok ⟨.top, [(.isFixedPitch, [.integer 1])]⟩ := by
    rw [ofBytes_eq, tokens_bytes]
    rfl
  have ends : EndsEntry bytes := by
    intro found h token last
    cases tokens_bytes.symm.trans h
    cases last
    exact ⟨_, rfl⟩
  have dropped : IsDropped refused := by
    refine ⟨[.real [0x1c, 0x1f], .integer 0], 17, tokens_refused, fun op hkey => ?_⟩
    cases (Operator.ofKey?_key op).symm.trans (congrArg Operator.ofKey? hkey)
    rfl
  have dropped' : IsDropped unknown := by
    refine ⟨[.integer 3073], 3122, tokens_unknown, fun op hkey => ?_⟩
    cases (Operator.ofKey?_key op).symm.trans (congrArg Operator.ofKey? hkey)
  have tokens_more : tokens [250, 255, 17] = .ok [.operand (.integer 1131), .operator 17] := by cbv
  obtain ⟨append, insert⟩ := ofBytes_append_of_endsEntry read ends
  refine ⟨read, ends, dropped, dropped', ?_⟩
  rw [List.append_assoc, insert refused dropped, ← List.append_assoc, insert unknown dropped', append,
    ofBytes_eq, tokens_more]
  rfl

end Dict

end CompactFont
