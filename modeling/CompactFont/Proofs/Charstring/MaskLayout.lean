import CompactFont.Proofs.Charstring.LateWidth
import CompactFont.Proofs.Charstring.MaskLength

/-!
# Where the bytes of the masks are

Up to four bytes of a mask are held in the value of its instruction, from the highest byte down, and
the form of the instruction tells how many they are. More than four are held four at a time by the
loads right before the instruction, whose value then tells how many they are (`Holds`). What stands
in front of these loads, operands that were not cleared for example, does not belong to the mask.

The first mask that is executed fixes how many bytes masks have: no stem hint is counted after it
(`Progress.invariant_frozen`). And nothing comes upon the loads of a mask later, neither the width nor
a call (`Progress.MadeStep.behind`). So all masks of a charstring have the same length, each of them
is held by the instructions that decoding makes, and can be told from these (`masks_of_decode`).
-/

namespace CompactFont.Charstring

/-- A mask over the stem hints. -/
structure Mask where
  /-- What it is for. -/
  kind : MaskKind
  /-- Its bits, one for each stem hint. -/
  bytes : List UInt8

/-! ### Masks that are executed -/

/-- The mask of a token, if it is a mask operator: the bytes that it took after its own. -/
def Token.masks (taken : List UInt8) : Token → List Mask
  | .mask kind => [⟨kind, taken.tail⟩]
  | _ => []

/-- The masks that are executed, those of subroutines too. -/
def Execution.masks : Execution → List Mask
  | .stop => []
  | .token t taken next => t.masks taken ++ next.masks
  | .call _ callee next => callee.masks ++ next.masks

theorem Token.masks_eq_nil {token : Token} (h : ∀ kind, token ≠ .mask kind) (taken : List UInt8) :
    token.masks taken = [] := by
  cases token with
  | mask kind => exact absurd rfl (h kind)
  | _ => rfl

/-! ### Masks that are held -/

/-- How many bytes the form of a mask stands for, if it tells that by itself. -/
def MaskForm.length? : MaskForm → Option Nat
  | .one => some 1
  | .two => some 2
  | .three => some 3
  | .four => some 4
  | .many => none

/-- An instruction, with those in front of it, holds a mask. -/
inductive Holds (front : List Instruction) : Instruction → Mask → Prop where
  /-- Up to four bytes are in the value. -/
  | inValue {kind : MaskKind} {form : MaskForm} {value : Int32} {bytes : List UInt8}
      (length : form.length? = some bytes.length)
      (packed : Cell.int32.encode value = bytes ++ List.replicate (4 - bytes.length) 0) :
      Holds front (.withValue (.mask kind form) value) ⟨kind, bytes⟩
  /-- More bytes are in the loads right before the instruction. -/
  | inLoads {kind : MaskKind} {value : Int32} {bytes : List UInt8} {before : List Instruction}
      {values : List Int32} (many : 4 < bytes.length) (length : value.toInt = bytes.length)
      (loads : front = before ++ values.map .int) (count : values.length = (bytes.length + 3) / 4)
      (packed : values.flatMap Cell.int32.encode =
        bytes ++ List.replicate (4 * values.length - bytes.length) 0) :
      Holds front (.withValue (.mask kind .many) value) ⟨kind, bytes⟩

/-- The mask that an instruction holds with those before it, the latest of these first. -/
def Instruction.heldMask? (before : List Instruction) (i : Instruction) : Option Mask :=
  match i.op with
  | .mask kind form =>
    match form.length? with
    | some length => some ⟨kind, (Cell.int32.encode i.value).take length⟩
    | none =>
      let length := i.value.toInt.toNat
      let loads := (before.take ((length + 3) / 4)).reverse
      some ⟨kind, (loads.flatMap fun load => Cell.int32.encode load.value).take length⟩
  | _ => none

/-- The masks that instructions hold, given the latest instruction first. -/
def heldMasks : List Instruction → List Mask
  | [] => []
  | i :: before => heldMasks before ++ (i.heldMask? before).toList

/-- What an instruction holds can be told from it and from those before it. -/
theorem Holds.heldMask? {front : List Instruction} {i : Instruction} {mask : Mask}
    (h : Holds front i mask) : i.heldMask? front.reverse = some mask := by
  cases h with
  | inValue length packed =>
    simp only [Instruction.heldMask?, Instruction.withValue, length, packed, List.take_left]
  | @inLoads kind value bytes before values many length loads count packed =>
    have size : value.toInt.toNat = bytes.length := by omega
    have latest : ((before ++ values.map Instruction.int).reverse.take
        ((bytes.length + 3) / 4)).reverse = values.map .int := by
      rw [← count, List.reverse_append, List.take_left' (by simp), List.reverse_reverse]
    have values' : (values.map Instruction.int).flatMap (fun load => Cell.int32.encode load.value) =
        values.flatMap Cell.int32.encode := List.flatMap_map ..
    simp only [Instruction.heldMask?, Instruction.withValue, MaskForm.length?, size, loads, latest,
      values', packed, List.take_left]

/-! ### Instructions that hold masks -/

/-- The instructions, the latest first, hold these masks and no others. -/
inductive Laid : List Instruction → List Mask → Prop where
  /-- There are none. -/
  | nil : Laid [] []
  /-- An instruction that is no mask. -/
  | other {i : Instruction} {front : List Instruction} {masks : List Mask}
      (notMask : i.op.isMask = false) (laid : Laid front masks) : Laid (i :: front) masks
  /-- A mask. -/
  | mask {i : Instruction} {front : List Instruction} {masks : List Mask} {mask : Mask}
      (holds : Holds front.reverse i mask) (laid : Laid front masks) :
      Laid (i :: front) (masks ++ [mask])

namespace Laid

variable {front : List Instruction} {masks : List Mask}

theorem append (h : Laid front masks) {later : List Instruction} (maskless : Maskless later) :
    Laid (later ++ front) masks := by
  induction later with
  | nil => exact h
  | cons i later ih =>
    obtain ⟨notMask, maskless⟩ := List.forall_mem_cons.mp maskless
    exact .other notMask (ih maskless)

/-- The masks can be told from the instructions. -/
theorem heldMasks (h : Laid front masks) : heldMasks front = masks := by
  induction h with
  | nil => rfl
  | @other i front masks notMask laid ih =>
    have none : i.heldMask? front = none := by
      unfold Instruction.heldMask?
      split
      · rename_i hop
        rw [hop] at notMask
        cases notMask
      · rfl
    rw [Charstring.heldMasks, none, Option.toList_none, List.append_nil, ih]
  | @mask i front masks mask holds laid ih =>
    have held := holds.heldMask?
    rw [List.reverse_reverse] at held
    rw [Charstring.heldMasks, held, Option.toList_some, ih]

/-- Each instruction that is a mask holds one of the masks. -/
theorem exists_holds (h : Laid front masks) {later before : List Instruction} {i : Instruction}
    (split : front = later ++ i :: before) (isMask : i.op.isMask = true) :
    ∃ mask ∈ masks, Holds before.reverse i mask := by
  induction h generalizing later with
  | nil => simp at split
  | other notMask laid ih =>
    cases later with
    | nil =>
      cases split
      rw [notMask] at isMask
      cases isMask
    | cons j later =>
      cases split
      exact ih rfl
  | @mask j front masks mask holds laid ih =>
    cases later with
    | nil =>
      cases split
      exact ⟨mask, by simp, holds⟩
    | cons j later =>
      cases split
      obtain ⟨mask', mem, holds'⟩ := ih rfl
      exact ⟨mask', by simp [mem], holds'⟩

end Laid

/-! ### The instructions of one mask -/

namespace Progress

/-- Bytes of a mask are packed into a value from the highest byte down. -/
theorem encode_maskValue {bytes : List UInt8} (few : bytes.length ≤ 4) :
    Cell.int32.encode (maskValue bytes) = bytes ++ List.replicate (4 - bytes.length) 0 := by
  have width : (bytes ++ List.replicate (4 - bytes.length) (0 : UInt8)).length = 4 := by
    rw [List.length_append, List.length_replicate]
    omega
  have same := BigEndian.toBytes_ofBytes (bytes ++ List.replicate (4 - bytes.length) 0)
  rw [width] at same
  have small := BigEndian.ofBytes_lt (bytes ++ List.replicate (4 - bytes.length) 0)
  rw [width] at small
  show BigEndian.toBytes 4 (maskValue bytes).toUInt32.toNat = _
  have value : (maskValue bytes).toUInt32.toNat =
      BigEndian.ofBytes (bytes ++ List.replicate (4 - bytes.length) 0) :=
    UInt32.toNat_ofNat_of_lt' small
  rw [value, same]

theorem length_maskChunks (bytes : List UInt8) :
    (maskChunks bytes).length = (bytes.length + 3) / 4 := by
  fun_induction maskChunks bytes with
  | case1 => rfl
  | case2 b bytes ih =>
    rw [List.length_cons, ih, List.length_drop, List.length_cons]
    omega

/-- The values of a long mask, one after the other, are its bytes. -/
theorem flatMap_encode_maskChunks (bytes : List UInt8) :
    (maskChunks bytes).flatMap (fun chunk => Cell.int32.encode (maskValue chunk)) =
      bytes ++ List.replicate (4 * (maskChunks bytes).length - bytes.length) 0 := by
  fun_induction maskChunks bytes with
  | case1 => rfl
  | case2 b bytes ih =>
    have few : (b :: bytes.take 3).length ≤ 4 := by
      simp only [List.length_cons, List.length_take]
      omega
    rw [List.flatMap_cons, ih, encode_maskValue few]
    have count := length_maskChunks (bytes.drop 3)
    by_cases last : bytes.length ≤ 3
    · have none : bytes.drop 3 = [] := List.drop_eq_nil_of_le last
      rw [none] at count ⊢
      simp [List.take_of_length_le last, maskChunks]
    · have full : 4 - (b :: bytes.take 3).length = 0 := by
        simp only [List.length_cons, List.length_take]
        omega
      have pad : 4 * (maskChunks (bytes.drop 3)).length - (bytes.drop 3).length =
          4 * (maskChunks (bytes.drop 3)).length + 4 - (bytes.length + 1) := by
        simp only [List.length_drop]
        omega
      rw [full, pad]
      simp [← List.append_assoc, Nat.mul_add]

/-- More than four bytes are held in loads. -/
theorem maskInstructions_of_many (kind : MaskKind) {bytes : List UInt8} (many : 4 < bytes.length) :
    maskInstructions kind bytes = ((maskChunks bytes).map maskValue).map .int ++
      [.withValue (.mask kind .many) (Int32.ofNat bytes.length)] := by
  have form : maskForm bytes.length = .many := by
    unfold maskForm
    split <;> first | omega | rfl
  rw [maskInstructions, form, List.map_map]
  rfl

/-- Up to four bytes are held in a value, and the form tells how many they are. -/
theorem maskInstructions_of_few (kind : MaskKind) {bytes : List UInt8} (some : bytes ≠ [])
    (few : bytes.length ≤ 4) :
    (maskForm bytes.length).length? = .some bytes.length ∧
      maskInstructions kind bytes =
        [.withValue (.mask kind (maskForm bytes.length)) (maskValue bytes)] := by
  have positive : 0 < bytes.length := List.length_pos_iff.mpr some
  have form : (maskForm bytes.length).length? = .some bytes.length := by
    generalize bytes.length = n at *
    match n, positive, few with
    | 1, _, _ => rfl
    | 2, _, _ => rfl
    | 3, _, _ => rfl
    | 4, _, _ => rfl
  refine ⟨form, ?_⟩
  unfold maskInstructions
  split
  · rename_i is
    rw [is] at form
    cases form
  · rfl

/-- The instructions that hold a mask are loads and the mask. -/
theorem exists_maskInstructions_eq (kind : MaskKind) {bytes : List UInt8} (some : bytes ≠ [])
    (short : bytes.length < 2147483648) :
    ∃ loads i, maskInstructions kind bytes = loads ++ [i] ∧ Maskless loads ∧ i.isInt = false ∧
      ∀ front, Holds (front ++ loads) i ⟨kind, bytes⟩ := by
  by_cases many : 4 < bytes.length
  · refine ⟨((maskChunks bytes).map maskValue).map .int, .withValue (.mask kind .many)
      (Int32.ofNat bytes.length), maskInstructions_of_many kind many, ?_, rfl, fun front => ?_⟩
    · intro i hi
      obtain ⟨value, -, rfl⟩ := List.mem_map.mp hi
      rfl
    · refine .inLoads many ?_ rfl ?_ ?_
      · exact Int32.toInt_ofNat_of_lt short
      · rw [List.length_map, length_maskChunks]
      · rw [List.flatMap_map, List.length_map]
        exact flatMap_encode_maskChunks bytes
  · have few : bytes.length ≤ 4 := Nat.not_lt.mp many
    obtain ⟨form, instructions⟩ := maskInstructions_of_few kind some few
    exact ⟨[], .withValue (.mask kind (maskForm bytes.length)) (maskValue bytes), instructions,
      List.forall_mem_nil _, rfl, fun front => .inValue form (encode_maskValue few)⟩

/-! ### How long masks are -/

/-- So many stem hints were declared, and no more are counted. -/
structure Frozen (stems : Nat) (p : Progress) : Prop where
  /-- Operands are not counted. -/
  counts : p.countsStems = false
  /-- None of them waits to be counted. -/
  stemOperands : p.stemOperands = 0
  /-- The stem hints that were declared. -/
  stems : p.stems = stems

variable {p q : Progress} {stems : Nat}

theorem frozen_mask (p : Progress) (kind : MaskKind) (bytes : List UInt8) :
    (p.mask kind bytes).Frozen p.stems := by
  unfold mask
  split
  · exact ⟨rfl, rfl, rfl⟩
  · exact ⟨rfl, rfl, rfl⟩

/-- **No stem hint is counted** once operands do not count as stem hints any more. -/
theorem invariant_frozen (stems : Nat) : Invariant (Frozen stems) := by
  have settled {p : Progress} (h : p.stems = stems) : p.settle.Frozen stems := ⟨rfl, rfl, h⟩
  refine
    { operand := ?_, escaped := ?_, stem := ?_, move := ?_, draw := ?_, endchar := ?_,
      takeCallOperand := ?_, mask := ?_ }
  · intro p value h
    refine ⟨h.counts, ?_, h.stems⟩
    simp only [operand, h.counts]
    exact h.stemOperands
  · intro p q operator hq h
    cases operator with
    | draw kind => cases hq; exact settled h.stems
    | arithmetic kind => cases hq; exact settled h.stems
    | undefined => cases hq
    | unknown => cases hq; exact settled h.stems
  · intro p q kind hq h
    obtain ⟨r, ⟨odd, -, -⟩ | ⟨-, rfl⟩, rfl⟩ := stem_eq_ok hq
    · rw [h.stemOperands] at odd
      cases odd
    · refine ⟨h.counts, rfl, ?_⟩
      simp only [make, countStems, h.stemOperands, h.stems]
      rfl
  · intro p q kind hq h
    obtain ⟨r, hwidth, hq⟩ := bind_eq_ok.mp hq
    cases hq
    exact settled ((stems_of_takeWidthIf hwidth).trans h.stems)
  · intro p kind h
    exact settled h.stems
  · intro p q hq h
    obtain ⟨r, hwidth, hq⟩ := bind_eq_ok.mp hq
    cases hq
    exact settled ((stems_of_takeWidthIf hwidth).trans h.stems)
  · intro p q operand hq h
    obtain ⟨i, made, -, -, -, rfl⟩ := takeCallOperand_eq_ok hq
    refine ⟨h.counts, ?_, h.stems⟩
    simp only [h.counts]
    exact h.stemOperands
  · intro p q kind bytes hq _ h
    have kept : q.stems = stems := by
      cases kind with
      | hint =>
        have implied : p.implyVstem = p := by
          simp [implyVstem, impliesVstem, h.counts]
        have done := stemsForHintMask_eq_ok hq
        rw [implied] at done
        rcases done with ⟨-, rfl⟩ | ⟨none, -, r, ⟨odd, -⟩ | ⟨-, rfl⟩, rfl⟩
        · exact h.stems
        · rw [h.stemOperands] at odd
          cases odd
        · simp only [h.stemOperands]
          exact none.symm.trans h.stems
      | counter =>
        simp only [Progress.stemsForMask, stemsForCounterMask] at hq
        split at hq
        · cases hq
        · cases hq
          simp only [countStems, h.stemOperands]
          exact h.stems
    exact kept ▸ frozen_mask q kind bytes

/-! ### From mask to mask -/

/-- The instructions hold the masks that were executed, and all operands that wait come after them.
Those masks of no bytes are not held. If there was one, no stem hints are counted any more. -/
structure Ledger (masks : List Mask) (p : Progress) : Prop where
  /-- Where the masks are. -/
  held : ∃ front later : List Instruction, p.made = later ++ front.reverse ∧ p.pending ≤ later.length ∧
    Maskless later ∧ Laid front.reverse (masks.filter fun mask => !mask.bytes.isEmpty) ∧
    ∀ i, front.getLast? = some i → i.isInt = false
  /-- How long they are. -/
  lengths : ∀ mask ∈ masks, p.Frozen p.stems ∧ mask.bytes.length = p.maskLength

theorem madeStep_maskless : MadeStep fun made _ => Maskless made where
  push value h := h.cons (by cases value <;> rfl)
  plain operator h := h.cons (Op.isMask_of_isOperator operator)
  settle h := h
  width _ h := by
    intro i hi
    rcases List.mem_or_eq_of_mem_set hi with hi | rfl
    · exact h i hi
    · rfl
  pop _ h := (List.forall_mem_cons.mp h).2
  endchar h := h.cons rfl

namespace Ledger

variable {masks : List Mask}

theorem start : Ledger [] {} where
  held := ⟨[], [], rfl, Nat.le_refl 0, List.forall_mem_nil _, .nil, nofun⟩
  lengths := nofun

/-- What keeps both parts keeps the ledger. -/
theorem of_steps (h : Ledger masks p)
    (made : ∀ R, MadeStep R → R p.made p.pending → R q.made q.pending)
    (frozen : p.Frozen p.stems → q.Frozen p.stems) : Ledger masks q where
  held := by
    obtain ⟨front, later, hmade, waiting, maskless, laid, fixed⟩ := h.held
    obtain ⟨later', hmade', waiting', maskless'⟩ :=
      made _ (madeStep_maskless.behind fixed) ⟨later, hmade, waiting, maskless⟩
    exact ⟨front, later', hmade', waiting', maskless', laid, fixed⟩
  lengths := by
    intro mask mem
    obtain ⟨stays, length⟩ := h.lengths mask mem
    have frozen := frozen stays
    rw [maskLength, ← frozen.stems] at length
    exact ⟨frozen.stems.symm ▸ frozen, length⟩

theorem laid (h : Ledger masks p) :
    Laid p.made (masks.filter fun mask => !mask.bytes.isEmpty) := by
  obtain ⟨front, later, hmade, -, maskless, laid, -⟩ := h.held
  rw [hmade]
  exact laid.append maskless

/-- A token that is neither a mask nor a call. -/
theorem perform (h : Ledger masks p) {sets : SubroutineSets} {token : Token} {rest : List UInt8}
    {next : Next} (noMask : ∀ kind, token ≠ .mask kind)
    (ht : Charstring.perform sets none token p rest = .ok next) : Ledger masks next.progress :=
  h.of_steps
    (fun _ step made => step.stepInvariant.perform (fun f hf => by cases hf) noMask ht made)
    (fun frozen => (invariant_frozen p.stems).perform (fun f hf => by cases hf) ht frozen)

theorem takeCallOperand (h : Ledger masks p) {operand : Int32}
    (hq : p.takeCallOperand = .ok (operand, q)) : Ledger masks q :=
  h.of_steps (fun _ step made => step.stepInvariant.takeCallOperand hq made)
    (fun frozen => (invariant_frozen p.stems).takeCallOperand hq frozen)

/-- A mask is added to those that are held, unless it has no bytes. -/
theorem mask (h : Ledger masks p) {kind : MaskKind} {bytes : List UInt8}
    (hq : p.stemsForMask kind = .ok q) (length : bytes.length = q.maskLength)
    (short : bytes.length < 2147483648) :
    Ledger (masks ++ [⟨kind, bytes⟩]) (q.mask kind bytes) where
  held := by
    obtain ⟨front, later, hmade, waiting, maskless, laid, fixed⟩ := h.held
    obtain ⟨later', hmade', waiting', maskless'⟩ :=
      (madeStep_maskless.behind fixed).stemsForMask hq ⟨later, hmade, waiting, maskless⟩
    unfold Progress.mask
    split
    · rename_i none
      refine ⟨front, later', hmade', Nat.zero_le _, maskless', ?_, fixed⟩
      simpa [none] using laid
    · rename_i some
      obtain ⟨loads, i, hmask, maskless'', notInt, holds⟩ :=
        exists_maskInstructions_eq kind (by simpa using some) short
      refine ⟨q.instructions ++ loads ++ [i], [], ?_, Nat.le_refl 0, List.forall_mem_nil _, ?_, ?_⟩
      · simp [hmask, instructions, settle]
      · have laid' : Laid q.made (masks.filter fun mask => !mask.bytes.isEmpty) := by
          rw [hmade']
          exact laid.append maskless'
        have reversed : (q.instructions ++ loads ++ [i]).reverse =
            i :: (loads.reverse ++ q.made) := by simp [instructions]
        have kept : (masks ++ [Mask.mk kind bytes]).filter (fun mask => !mask.bytes.isEmpty) =
            masks.filter (fun mask => !mask.bytes.isEmpty) ++ [⟨kind, bytes⟩] := by
          simp [some]
        rw [reversed, kept]
        refine .mask ?_ (laid'.append fun j hj => maskless'' j (List.mem_reverse.mp hj))
        rw [List.reverse_append, List.reverse_reverse]
        exact holds q.instructions
      · intro j hj
        rw [List.getLast?_concat] at hj
        cases hj
        exact notInt
  lengths := by
    have frozen := frozen_mask q kind bytes
    have same : (q.mask kind bytes).maskLength = q.maskLength := by
      rw [maskLength, frozen.stems, maskLength]
    intro mask mem
    refine ⟨frozen.stems.symm ▸ frozen, ?_⟩
    rw [same]
    rcases List.mem_append.mp mem with mem | mem
    · obtain ⟨stays, length'⟩ := h.lengths mask mem
      have stems := ((invariant_frozen p.stems).mask hq length stays).stems
      rw [length', maskLength, maskLength, ← stems, frozen.stems]
    · cases List.mem_singleton.mp mem
      exact length

/-- The masks that are executed are added. -/
theorem executes (h : Ledger masks p) {sets : SubroutineSets} {calls : Nat} {bytes : List UInt8}
    {x : Execution} {e : Ending} (hx : Executes sets calls bytes p x e q) :
    Ledger (masks ++ x.masks) q := by
  induction hx generalizing masks with
  | exhausted =>
    rw [Execution.masks, List.append_nil]
    exact h
  | @go calls b bytes taken rest left token p q r x e read noCall performed split next ih =>
    rw [Execution.masks, ← List.append_assoc]
    apply ih
    by_cases isMask : ∃ kind, token = .mask kind
    · obtain ⟨kind, rfl⟩ := isMask
      obtain ⟨q', mask, left', hq, hbytes, hnext⟩ := perform_mask_eq_ok performed
      cases hnext
      obtain ⟨length, short, hrest⟩ := maskBytes_eq_ok hbytes
      have taken' : taken = b :: mask := by
        rw [Token.eq_of_readAfter_mask read] at hrest
        rw [hrest, ← List.cons_append] at split
        exact (List.append_cancel_right split).symm
      rw [taken']
      exact h.mask hq length short
    · have noMask : ∀ kind, token ≠ .mask kind := fun kind is => isMask ⟨kind, is⟩
      rw [Token.masks_eq_nil noMask, List.append_nil]
      exact h.perform noMask performed
  | @stop calls b bytes taken rest token p q e read noCall performed split =>
    have noMask : ∀ kind, token ≠ .mask kind := by
      rintro kind rfl
      rcases (perform_eq_stop noCall performed).1 with ⟨is, -⟩ | ⟨is, -, -⟩ <;> cases is
    rw [Execution.masks, Token.masks_eq_nil noMask, Execution.masks, List.append_nil,
      List.append_nil]
    exact h.perform noMask performed
  | callBack read split popped known found callee back next ihCallee ihNext =>
    rw [Execution.masks, ← List.append_assoc]
    exact ihNext (ihCallee (h.takeCallOperand popped))
  | callFinish read split popped known found callee ih =>
    rw [Execution.masks, Execution.masks, List.append_nil]
    exact ih (h.takeCallOperand popped)

end Ledger

end Progress

/-- **All masks of a charstring have the same number of bytes**, and each instruction that is a mask
holds one of them. So the bytes that the mask operators took are known from the instructions. -/
theorem masks_of_decode {sets : SubroutineSets} {charstring : List UInt8} {list : List Instruction}
    (h : decode sets charstring = .ok list) :
    (∃ x e p, Executes sets nestingLimit charstring {} x e p) ∧
      ∃ n, ∀ x e p, Executes sets nestingLimit charstring {} x e p →
        (∀ mask ∈ x.masks, mask.bytes.length = n) ∧
        heldMasks list.reverse = x.masks.filter (fun mask => !mask.bytes.isEmpty) ∧
        ∀ front i rest, list = front ++ i :: rest → i.op.isMask = true →
          ∃ mask ∈ x.masks, mask.bytes.length = n ∧ Holds front i mask := by
  obtain ⟨e, p, q, hd, hq, rfl⟩ := decode_eq_ok h
  rw [← decodeNested_eq] at hd
  obtain ⟨x, hx⟩ := executes_of_decodeNested hd
  refine ⟨⟨x, e, p, hx⟩, p.maskLength, ?_⟩
  intro x' e' p' hx'
  have same := (decodeNested_of_executes hx).symm.trans (decodeNested_of_executes hx')
  cases same
  have ledger := Progress.Ledger.start.executes hx'
  rw [List.nil_append] at ledger
  have laid : Laid q.instructions.reverse (x'.masks.filter fun mask => !mask.bytes.isEmpty) := by
    rw [Progress.instructions, List.reverse_reverse]
    rcases hq with rfl | rfl
    · exact ledger.laid
    · exact .other rfl ledger.laid
  refine ⟨fun mask mem => (ledger.lengths mask mem).2, laid.heldMasks, ?_⟩
  intro front i rest split isMask
  have split' : q.instructions.reverse = rest.reverse ++ i :: front.reverse := by
    rw [split, List.reverse_append, List.reverse_cons, List.append_assoc, List.singleton_append]
  obtain ⟨mask, mem, holds⟩ := laid.exists_holds split' isMask
  rw [List.reverse_reverse] at holds
  have mem := (List.mem_filter.mp mem).1
  exact ⟨mask, mem, (ledger.lengths mask mem).2, holds⟩

/-- A counter mask and a hint mask over 33 stem hints, with operands that are left in between. -/
theorem masks_of_decode_longMasks :
    let sets : SubroutineSets := ⟨⟨.empty⟩, none⟩
    let charstring : List UInt8 := List.replicate 66 140 ++
      [18, 20, 255, 0, 0, 1, 128, 149, 149, 19, 1, 2, 3, 4, 128, 14]
    let list : List Instruction := List.replicate 66 (.int 1) ++
      [.plain (.stem .hstemhm), .int (-16777215), .int (-2147483648),
        .withValue (.mask .counter .many) 5, .int 10, .int 10, .int 16909060, .int (-2147483648),
        .withValue (.mask .hint .many) 5, .plain .endchar]
    decode sets charstring = .ok list ∧
      (∃ x e p, Executes sets nestingLimit charstring {} x e p) ∧
        ∃ n, ∀ x e p, Executes sets nestingLimit charstring {} x e p →
          (∀ mask ∈ x.masks, mask.bytes.length = n) ∧
          heldMasks list.reverse = x.masks.filter (fun mask => !mask.bytes.isEmpty) ∧
          ∀ front i rest, list = front ++ i :: rest → i.op.isMask = true →
            ∃ mask ∈ x.masks, mask.bytes.length = n ∧ Holds front i mask := by
  intro sets charstring list
  have decoded : decode sets charstring = .ok list := by cbv
  exact ⟨decoded, masks_of_decode decoded⟩

end CompactFont.Charstring
