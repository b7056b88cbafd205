import CompactFont.Proofs.Charstring.Courses
import CompactFont.Proofs.Charstring.Flattening
import CompactFont.Proofs.Charstring.Limits
import CompactFont.Proofs.Charstring.Spelling

/-!
# Vertical stems that are left out

Operands right before a hint mask are for vertical stems, if the latest stem operator was of another
kind and nothing but stem hints was declared. The operator may then be left out or be written: the two
charstrings are decoded to the same list, or fail alike, whatever comes after (`decode_vstem_leftOut`).

What makes this so is one step: when the mask is performed, putting the stems in leaves what is known as
the operator would (`Progress.perform_mask_of_stem`). That they are put in is known from the tally of the
execution, as long as the charstring is at its opening (`Executes.opened`). If it fails before the
operands, it fails so with any bytes after (`decodeBytes_append_of_error`).
-/

namespace CompactFont.Charstring

variable {sets : SubroutineSets} {run : Option (List UInt8 → Progress → Decoded)}

/-! ### More bytes -/

/-- An execution that comes to the end of the bytes goes on with those that come after. -/
theorem Executes.append {calls : Nat} {bytes : List UInt8} {p q : Progress} {x : Execution}
    (h : Executes sets calls bytes p x .exhausted q) (more : List UInt8) :
    decodeNested sets calls (bytes ++ more) p = decodeNested sets calls more q := by
  -- Of the bytes that are executed only those of the charstring itself are followed by more; the
  -- subroutines are the same.
  generalize he : Ending.exhausted = e at h
  induction h with
  | exhausted => rfl
  | go read noCall performed _ _ ih =>
    obtain ⟨front, rfl, performs⟩ := perform_eq_go noCall performed
    have read := (Token.exact_readAfter _).append read more
    rw [List.append_assoc] at read
    rw [List.cons_append, decodeNested_eq, decodeBytes_go read (performs sets _ _), ← decodeNested_eq,
      ih he]
  | stop _ noCall performed =>
    subst he
    rcases (perform_eq_stop noCall performed).1 with ⟨-, other⟩ | ⟨-, other, -⟩ <;> cases other
  | callBack read _ popped known found callee back _ _ ih =>
    have read := (Token.exact_readAfter _).append read more
    have called := decodeNested_of_executes callee
    rw [List.cons_append, decodeNested_eq, nestedRun,
      decodeBytes_go read (perform_call_back popped known found called back), ← nestedRun,
      ← decodeNested_eq, ih he]
  | callFinish => cases he

/-- Where a token leads to that takes no bytes: to an ending, or on to the bytes after it. -/
def Next.before (rest : List UInt8) : Option Ending × Progress → Next
  | (none, p) => .go p rest
  | (some e, p) => .stop e p

/-- What a token leads to, if it is no mask, does not depend on the bytes after it. -/
theorem exists_perform_eq (sets : SubroutineSets) (run : Option (List UInt8 → Progress → Decoded))
    {token : Token} (noMask : ∀ kind, token ≠ .mask kind) (p : Progress) :
    ∃ outcome, ∀ rest, perform sets run token p rest = Next.before rest <$> outcome := by
  have goes (step : Except FontFault Progress) :
      ∃ outcome, ∀ rest, (Next.go · rest) <$> step = Next.before rest <$> outcome :=
    ⟨(none, ·) <$> step, fun rest => by cases step <;> rfl⟩
  cases token with
  | operand value => exact goes (.ok (p.operand value))
  | reserved => exact goes (.ok p)
  | escaped operator => exact goes (p.escaped operator)
  | stem kind => exact goes (p.stem kind)
  | mask kind => exact absurd rfl (noMask kind)
  | move kind => exact goes (p.move kind)
  | draw kind => exact goes (.ok (p.draw kind))
  | endchar =>
    refine ⟨(some .finished, ·) <$> p.endchar, fun rest => ?_⟩
    simp only [perform]
    cases p.endchar <;> rfl
  | ret => exact ⟨.ok (some .returned, p), fun rest => rfl⟩
  | call scope =>
    refine ⟨(fun r => (if r.1 = .finished then some r.1 else none, r.2)) <$> call sets run scope p,
      fun rest => ?_⟩
    simp only [perform]
    rcases call sets run scope p with fault | ⟨e, q⟩
    · rfl
    · cases e <;> rfl

/-- Whole tokens fail as they do, whatever comes after them. The bytes of masks are no tokens. -/
theorem decodeBytes_append_of_error {tokens : List Token} {bytes : List UInt8} {p : Progress}
    {fault : FontFault} (spelled : Spells tokens bytes) (noMask : ∀ kind, .mask kind ∉ tokens)
    (h : decodeBytes sets run bytes p = .error fault) (more : List UInt8) :
    decodeBytes sets run (bytes ++ more) p = .error fault := by
  induction spelled generalizing p with
  | nil =>
    rw [decodeBytes] at h
    cases h
  | @cons token tokens b bytes rest read _ ih =>
    have plain : ∀ kind, token ≠ .mask kind := fun kind is => noMask kind (is ▸ List.mem_cons_self)
    obtain ⟨outcome, performed⟩ := exists_perform_eq sets run plain p
    rw [decodeBytes_read read, performed] at h
    rw [List.cons_append, decodeBytes_read ((Token.exact_readAfter b).append read more), performed]
    rcases outcome with fault' | ⟨_ | e, q⟩
    · exact h
    · exact ih (fun kind later => noMask kind (List.mem_cons_of_mem _ later)) h
    · cases h

/-! ### The opening of a charstring -/

namespace Progress

variable {p q : Progress} {t : Tally}

/-- What is known agrees with a tally, as long as only stem hints were declared. -/
structure Opened (p : Progress) (t : Tally) : Prop where
  /-- The operands that wait count as stem hints. -/
  waiting : t.opening ≠ .past → p.countsStems = true ∧ p.stemOperands = t.waiting
  /-- The latest stem operator is known. -/
  latest : ∀ kind, t.opening = .stems kind → p.stemFound = true ∧ p.latestStem = some kind

namespace Opened

theorem start : Opened {} {} := ⟨fun _ => ⟨rfl, rfl⟩, nofun⟩

/-- After an operator of another kind there is nothing to agree. -/
theorem of_past (past : t.opening = .past) : p.Opened t :=
  ⟨fun opening => absurd past opening, fun kind stems => by cases past.symm.trans stems⟩

theorem operand (h : p.Opened t) (value : Operand) (taken : List UInt8) :
    (p.operand value).Opened (t.after (.operand value) taken) where
  waiting opening := by
    obtain ⟨counts, waiting⟩ := h.waiting opening
    simp [Progress.operand, make, counts, waiting, Tally.after, Token.clears]
  latest := h.latest

theorem stem (h : p.Opened t) {kind : Stem} (hq : p.stem kind = .ok q) (taken : List UInt8) :
    q.Opened (t.after (.stem kind) taken) := by
  by_cases past : t.opening = .past
  · exact of_past (if_pos past)
  obtain ⟨r, hr, rfl⟩ := stem_eq_ok hq
  have counts : r.countsStems = p.countsStems := by
    rcases hr with ⟨-, -, hr⟩ | ⟨-, rfl⟩
    · obtain ⟨s, hs, rfl⟩ := takeStemWidth_eq_ok hr
      obtain ⟨_, _, -, -, rfl⟩ := takeWidth_eq_ok hs
      rfl
    · rfl
  refine ⟨fun _ => ⟨counts.trans (h.waiting past).1, rfl⟩, fun kind' is => ?_⟩
  cases (if_neg past : t.opening.after (.stem kind) = .stems kind).symm.trans is
  exact ⟨rfl, rfl⟩

theorem perform (h : p.Opened t) {token : Token} {rest : List UInt8} {next : Next}
    (noCall : token.isCall = false) (ht : Charstring.perform sets none token p rest = .ok next)
    (taken : List UInt8) : next.progress.Opened (t.after token taken) := by
  cases token with
  | operand value =>
    cases ht
    exact h.operand value taken
  | stem kind =>
    obtain ⟨q, hq, rfl⟩ := map_eq_ok.mp ht
    exact h.stem hq taken
  | reserved | ret =>
    cases ht
    exact h
  | call scope => cases noCall
  | _ => exact of_past rfl

/-- The operand of a call does not wait any more. -/
theorem takeCallOperand (h : p.Opened t) {operand : Int32}
    (hq : p.takeCallOperand = .ok (operand, q)) : q.Opened t.called := by
  obtain ⟨i, made, -, -, -, rfl⟩ := takeCallOperand_eq_ok hq
  refine ⟨fun opening => ?_, h.latest⟩
  obtain ⟨counts, waiting⟩ := h.waiting opening
  exact ⟨counts, by simp only [counts, if_true, waiting, Tally.called]⟩

theorem impliesVstem (h : p.Opened t) (implies : t.ImpliesVstem) :
    p.impliesVstem = true ∧ p.countsStems = true ∧ p.stemOperands = t.waiting := by
  obtain ⟨kind, opening, other⟩ := implies
  obtain ⟨found, latest⟩ := h.latest kind opening
  obtain ⟨counts, waiting⟩ := h.waiting (by rw [opening]; nofun)
  refine ⟨?_, counts, waiting⟩
  cases kind with
  | vstem => exact absurd rfl other
  | _ => simp [Progress.impliesVstem, found, counts, latest]

end Opened

end Progress

/-- What is known after an execution agrees with the tally. -/
theorem Executes.opened {calls : Nat} {bytes : List UInt8} {p q : Progress} {x : Execution}
    {e : Ending} {t : Tally} (hx : Executes sets calls bytes p x e q) (h : p.Opened t) :
    q.Opened (x.tally t) := by
  induction hx generalizing t with
  | exhausted => exact h
  | go _ noCall performed _ _ ih => exact ih (h.perform noCall performed _)
  | stop _ noCall performed => exact h.perform noCall performed _
  | callBack _ _ popped _ _ _ _ _ ihCallee ihNext => exact ihNext (ihCallee (h.takeCallOperand popped))
  | callFinish _ _ popped _ _ _ ih => exact ih (h.takeCallOperand popped)

/-! ### The operator that is left out -/

namespace Progress

variable {p : Progress}

@[simp] theorem impliesVstem_operands (values : List Operand) :
    (p.operands values).impliesVstem = p.impliesVstem := by
  induction values generalizing p with
  | nil => rfl
  | cons value values ih => exact ih

theorem stemOperands_operands (counts : p.countsStems = true) (values : List Operand) :
    (p.operands values).stemOperands = p.stemOperands + values.length := by
  induction values generalizing p with
  | nil => rfl
  | cons value values ih =>
    have more : (p.operand value).stemOperands = p.stemOperands + 1 := if_pos counts
    have later : ((p.operand value).operands values).stemOperands = _ := ih counts
    rw [operands, List.foldl_cons, ← operands, later, more, List.length_cons]
    omega

/-- After vertical stems were declared, none are put in. -/
theorem implyVstem_of_latest (latest : p.latestStem = some .vstem) : p.implyVstem = p :=
  if_neg (by simp [impliesVstem, latest])

/-- How many operands wait makes no difference to a mask. -/
theorem mask_pending (p : Progress) (kind : MaskKind) (n : Nat) (bytes : List UInt8) :
    { p with pending := n }.mask kind bytes = p.mask kind bytes := by
  unfold mask
  split <;> rfl

/-- Where vertical stems would be put in before a hint mask, the operator that declares them makes no
difference to what the mask leads to. -/
theorem perform_mask_of_stem (sets : SubroutineSets) (run : Option (List UInt8 → Progress → Decoded))
    (implies : p.impliesVstem = true) (even : p.stemOperands % 2 = 0) :
    ∃ q, p.stem .vstem = .ok q ∧ ∀ rest,
      perform sets run (.mask .hint) p rest = perform sets run (.mask .hint) q rest := by
  have found : p.stemFound = true := by
    simp only [impliesVstem, Bool.and_eq_true] at implies
    exact implies.1.1
  have implied : p.implyVstem =
      { p.countStems.make (.plain (.stem .vstem)) with latestStem := some .vstem, stemOperands := 0 } :=
    if_pos implies
  -- The operator leaves no operand waiting; the stems that are put in leave that to the mask.
  have declared : p.stem .vstem = .ok { p.implyVstem with pending := 0 } := by
    have noWidth : ¬p.stemOperands % 2 = 1 := by omega
    simp only [stem, if_neg noWidth, implied, pure_bind]
    rw [← found]
    rfl
  have latest : p.implyVstem.latestStem = some .vstem := by rw [implied]
  have again := implyVstem_of_latest (p := { p.implyVstem with pending := 0 }) latest
  have after := stemsForHintMask_of_found (p := { p.implyVstem with pending := 0 })
    (stemFound_implyVstem found)
  rw [again] at after
  refine ⟨_, declared, fun rest => ?_⟩
  simp only [perform, stemsForMask, stemsForHintMask_of_found found, after]
  by_cases none : p.implyVstem.stems = 0
  · simp only [none, if_true]
  · have bytes : { p.implyVstem with pending := 0 }.maskBytes rest = p.implyVstem.maskBytes rest := rfl
    simp only [none, if_false, bytes, mask_pending]

end Progress

/-- So it makes no difference to what is decoded from there. -/
theorem decodeBytes_mask_of_implied {p : Progress} (implies : p.impliesVstem = true)
    (even : p.stemOperands % 2 = 0) (rest : List UInt8) :
    decodeBytes sets run (19 :: rest) p = decodeBytes sets run (3 :: 19 :: rest) p := by
  obtain ⟨q, declared, same⟩ := Progress.perform_mask_of_stem sets run implies even
  have performed : perform sets run (.stem .vstem) p (19 :: rest) = .ok (.go q (19 :: rest)) := by
    simp only [perform, declared]
    rfl
  have mask : Token.readAfter 19 rest = .ok (.mask .hint, rest) := rfl
  have vstem : Token.readAfter 3 (19 :: rest) = .ok (.stem .vstem, 19 :: rest) := rfl
  rw [decodeBytes_go vstem performed, decodeBytes_read mask, decodeBytes_read mask, same]

/-- The charstring declares stem hints and does nothing else, up to a stem operator after which the next
vertical stems need no operator of their own. Or it fails before. -/
inductive DeclaresStems (sets : SubroutineSets) : List UInt8 → Prop where
  /-- Operands and stem operators are executed, in subroutines too, and no operand waits. -/
  | declared {front : List UInt8} {x : Execution} {p : Progress}
      (executes : Executes sets nestingLimit front {} x .exhausted p)
      (noneWaits : (x.tally {}).waiting = 0) (implies : (x.tally {}).ImpliesVstem) :
      DeclaresStems sets front
  /-- It fails within tokens none of which is a mask. -/
  | failed {front unread : List UInt8} {tokens : List Token} {fault : FontFault}
      (spelled : Spells tokens front) (noMask : ∀ kind, .mask kind ∉ tokens)
      (fails : decode sets front = .error fault) : DeclaresStems sets (front ++ unread)

/-- A charstring that fails within whole tokens fails alike with more bytes. -/
theorem decode_append_of_error {tokens : List Token} {bytes : List UInt8} {fault : FontFault}
    (spelled : Spells tokens bytes) (noMask : ∀ kind, .mask kind ∉ tokens)
    (h : decode sets bytes = .error fault) (more : List UInt8) :
    decode sets (bytes ++ more) = .error fault := by
  rw [decode_eq_map, decodeNested_eq] at h ⊢
  cases fails : decodeBytes sets (nestedRun sets nestingLimit) bytes {} with
  | error fault' =>
    rw [fails] at h
    rw [decodeBytes_append_of_error spelled noMask fails more]
    exact h
  | ok outcome =>
    rw [fails] at h
    cases h

/-- **The operator of vertical stems can be left out before a hint mask** that follows other stem hints:
with an even number of operands, also with none, it makes no difference to what is decoded, whatever the
mask is and whatever comes after it. -/
theorem decode_vstem_leftOut {front operands : List UInt8} {values : List Operand}
    (h : DeclaresStems sets front) (spelled : Spells (values.map Token.operand) operands)
    (even : values.length % 2 = 0) (rest : List UInt8) :
    decode sets (front ++ (operands ++ 19 :: rest)) =
      decode sets (front ++ (operands ++ 3 :: 19 :: rest)) := by
  cases h with
  | @failed front unread tokens fault spelled noMask fails =>
    rw [List.append_assoc, List.append_assoc, decode_append_of_error spelled noMask fails,
      decode_append_of_error spelled noMask fails]
  | @declared front x p executes noneWaits implies =>
    rw [decode_eq_map, decode_eq_map, executes.append, executes.append, decodeNested_eq]
    rw [← List.append_nil (values.map _)] at spelled
    -- Either way the operands are pushed on what is known after the front.
    obtain ⟨left, nothing, pushed⟩ : ∃ left, Spells [] left ∧ ∀ more p,
        decodeBytes sets (nestedRun sets nestingLimit) (operands ++ more) p =
          decodeBytes sets (nestedRun sets nestingLimit) (left ++ more) (p.operands values) :=
      decodeBytes_operands spelled
    cases nothing
    obtain ⟨implies, counts, waiting⟩ := (executes.opened .start).impliesVstem implies
    have pairs : (p.operands values).stemOperands % 2 = 0 := by
      rw [Progress.stemOperands_operands counts, waiting, noneWaits, Nat.zero_add, even]
    rw [pushed, pushed, List.nil_append, List.nil_append,
      decodeBytes_mask_of_implied ((Progress.impliesVstem_operands values).trans implies) pairs]

/-- A subroutine declares the stem hints, with a width in front; two operands and a mask follow. -/
theorem decode_vstem_leftOut_subroutine :
    let sets : SubroutineSets := ⟨⟨⟨#[1, 2], #[18]⟩⟩, none⟩
    let front : List UInt8 := [144, 139, 139, 32, 29]
    DeclaresStems sets front ∧ Spells ([.int 10, .int 20].map Token.operand) [149, 159] ∧
      decode sets (front ++ ([149, 159] ++ 19 :: [192, 14])) =
        decode sets (front ++ ([149, 159] ++ 3 :: 19 :: [192, 14])) := by
  intro sets front
  let x : Execution := .token (.operand (.int 5)) [144] (.token (.operand (.int 0)) [139]
    (.token (.operand (.int 0)) [139] (.token (.operand (.int (-107))) [32]
      (.call [29] (.token (.stem .hstemhm) [18] .stop) .stop))))
  have popped (p : Progress) := p.takeCallOperand_operand (-107)
  have found : Subroutines.get ⟨⟨#[1, 2], #[18]⟩⟩ (-107 : Int16).toInt32 = .ok [18] := rfl
  obtain ⟨p, executes⟩ : ∃ p, Executes sets nestingLimit front {} x .exhausted p :=
    ⟨_, .go rfl rfl rfl rfl (.go rfl rfl rfl rfl (.go rfl rfl rfl rfl (.go rfl rfl rfl rfl
      (.callBack rfl rfl (popped _) rfl found (.go rfl rfl rfl rfl .exhausted) (by decide)
        .exhausted))))⟩
  have declares : DeclaresStems sets front := .declared executes rfl (by decide)
  have spelled : Spells ([.int 10, .int 20].map Token.operand) [149, 159] :=
    .cons rfl (.cons rfl .nil)
  exact ⟨declares, spelled, decode_vstem_leftOut declares spelled rfl [192, 14]⟩

end CompactFont.Charstring
