import CompactFont.Proofs.Charstring.Prefix

/-!
# How long the first mask is

A mask has one bit for each stem hint that was declared, and stem hints take two operands each. So if
there is nothing but operands and stem operators before the first mask, in pairs and with or without
a width in front, the mask has as many bytes as half the operands need bits. It does not matter how
they are spread over the stem operators, or whether the last of them have no operator at all
(`mask_of_decode`).

There is one exception. Operands without an operator of their own are for vertical stems. If vertical
stems were just declared, a hint mask does not count them (`decode_vstem_hintMask`).
-/

namespace CompactFont.Charstring

/-- What a charstring has before its first mask, if it only declares stem hints there. -/
structure Hints where
  /-- The width. -/
  width : Option Operand
  /-- The stem operators, each after its operands. -/
  declared : List (List Operand × Stem)
  /-- The operands right before the mask. -/
  last : List Operand

namespace Hints

/-- The operators, each after its operands, as tokens. -/
def declaredTokens (declared : List (List Operand × Stem)) : List Token :=
  declared.flatMap fun (values, kind) => values.map .operand ++ [.stem kind]

/-- All tokens up to the mask operator. -/
def tokens (hints : Hints) (kind : MaskKind) : List Token :=
  hints.width.toList.map .operand ++ (declaredTokens hints.declared ++
    (hints.last.map .operand ++ [.mask kind]))

/-- Operands come in pairs. -/
def Paired (hints : Hints) : Prop :=
  (∀ declaration ∈ hints.declared, declaration.1.length % 2 = 0) ∧ hints.last.length % 2 = 0

/-- How many operands of stem operators there are. -/
def declaredOperands (declared : List (List Operand × Stem)) : Nat :=
  (declared.flatMap Prod.fst).length

/-- How many operands there are, besides the width. -/
def operands (hints : Hints) : Nat := declaredOperands hints.declared + hints.last.length

/-- The last stem operator. -/
def latest (hints : Hints) : Option Stem := hints.declared.getLast?.map Prod.snd

/-- How many operands are for stem hints that the mask has bits for. -/
def counted (hints : Hints) (kind : MaskKind) : Nat :=
  if kind = .hint ∧ hints.latest = some .vstem then declaredOperands hints.declared
  else hints.operands

end Hints

/-- No instruction is a mask. -/
def Maskless (list : List Instruction) : Prop := ∀ i ∈ list, i.op.isMask = false

theorem Maskless.cons {i : Instruction} {list : List Instruction} (hi : i.op.isMask = false)
    (h : Maskless list) : Maskless (i :: list) := List.forall_mem_cons.mpr ⟨hi, h⟩

namespace Progress

variable {p q : Progress} {latest : Option Stem} {w n k : Nat}

theorem maskless_takeWidth (h : Maskless p.made) (hq : p.takeWidth = .ok q) : Maskless q.made := by
  obtain ⟨later, n, -, -, rfl⟩ := takeWidth_eq_ok hq
  intro i hi
  rcases List.mem_or_eq_of_mem_set hi with hi | rfl
  · exact h i hi
  · rfl

/-- Stem hints with `n` operands were declared, `latest` by the last operator, and nothing else was
done. So many operands wait. -/
structure Declaring (p : Progress) (latest : Option Stem) (n waiting : Nat) : Prop where
  /-- No mask was made. -/
  maskless : Maskless p.made
  /-- Operands are counted. -/
  counts : p.countsStems = true
  /-- The path was not entered. -/
  noPath : p.pathEntered = false
  /-- It is known whether there were stem operators. -/
  found : p.stemFound = latest.isSome
  /-- It is known which was the last. -/
  latestStem : p.latestStem = latest
  /-- All operands that were declared are counted. -/
  stems : 2 * p.stems = n
  /-- So are those that wait. -/
  waiting : p.stemOperands = waiting
  /-- Nothing is declared without an operator. -/
  undeclared : latest = none → n = 0

theorem declaring_start : Declaring {} none 0 0 :=
  ⟨List.forall_mem_nil _, rfl, rfl, rfl, rfl, rfl, rfl, fun _ => rfl⟩

theorem Declaring.operand (h : p.Declaring latest n w) (value : Operand) :
    (p.operand value).Declaring latest n (w + 1) where
  maskless := h.maskless.cons (by cases value <;> rfl)
  counts := h.counts
  noPath := h.noPath
  found := h.found
  latestStem := h.latestStem
  stems := h.stems
  waiting := by simp only [Progress.operand, h.counts, if_true, h.waiting]
  undeclared := h.undeclared

theorem Declaring.operands (h : p.Declaring latest n w) (values : List Operand) :
    (p.operands values).Declaring latest n (w + values.length) := by
  induction values generalizing p w with
  | nil => exact h
  | cons value values ih =>
    rw [List.length_cons, Nat.add_comm values.length, ← Nat.add_assoc]
    exact ih (h.operand value)

/-- A stem operator declares the operands that wait, but for the width. -/
theorem Declaring.stem (h : p.Declaring latest n (w + k)) (few : w ≤ 1) (even : k % 2 = 0)
    {kind : Stem} (hq : p.stem kind = .ok q) : q.Declaring (some kind) (n + k) 0 := by
  have stems := h.stems
  have waiting := h.waiting
  obtain ⟨r, hr, rfl⟩ := stem_eq_ok hq
  have taken : Maskless r.made ∧ r.countsStems = true ∧ r.pathEntered = false ∧
      2 * (r.stems + r.stemOperands / 2) = n + k := by
    rcases hr with ⟨odd, -, hr⟩ | ⟨notOdd, rfl⟩
    · obtain ⟨r', hwidth, rfl⟩ := takeStemWidth_eq_ok hr
      refine ⟨maskless_takeWidth (q := r') h.maskless hwidth, ?_⟩
      obtain ⟨_, _, -, -, rfl⟩ := takeWidth_eq_ok hwidth
      exact ⟨h.counts, h.noPath, by simp only; omega⟩
    · exact ⟨h.maskless, h.counts, h.noPath, by omega⟩
  obtain ⟨maskless, counts, noPath, stems⟩ := taken
  exact ⟨maskless.cons rfl, counts, noPath, rfl, rfl, stems, rfl, fun none => by cases none⟩

/-- Stem operators declare their operands, one after the other. -/
theorem Declaring.declared {sets : SubroutineSets}
    {run : Option (List UInt8 → Progress → Decoded)} {declared : List (List Operand × Stem)}
    {tokens : List Token} {bytes more : List UInt8} {e : Ending} (h : p.Declaring latest n w)
    (few : w ≤ 1) (even : ∀ declaration ∈ declared, declaration.1.length % 2 = 0)
    (spelled : Spells (Hints.declaredTokens declared ++ tokens) bytes)
    (hd : decodeBytes sets run (bytes ++ more) p = .ok (e, q)) :
    ∃ r w left, w ≤ 1 ∧ Spells tokens left ∧
      r.Declaring ((declared.getLast?.map Prod.snd).or latest)
        (n + Hints.declaredOperands declared) w ∧
      decodeBytes sets run (left ++ more) r = .ok (e, q) := by
  induction declared generalizing p latest n w bytes with
  | nil => exact ⟨p, w, bytes, few, spelled, h, hd⟩
  | cons declaration declared ih =>
    obtain ⟨values, kind⟩ := declaration
    rw [Hints.declaredTokens, List.flatMap_cons, List.append_assoc, List.append_assoc] at spelled
    obtain ⟨left, spelled, pushed⟩ := decodeBytes_operands spelled
    rw [pushed] at hd
    obtain ⟨left, next, spelled, performed, hd⟩ := exists_perform_of_spells spelled hd
    obtain ⟨r, hr, hnext⟩ := map_eq_ok.mp performed
    obtain ⟨even, evens⟩ := List.forall_mem_cons.mp even
    rcases hd with rfl | ⟨s, after, rfl, hd⟩
    · cases hnext
    cases hnext
    obtain ⟨r, w, left, few, spelled, declaring, hd⟩ :=
      ih ((h.operands values).stem few even hr) (Nat.zero_le 1) evens spelled hd
    refine ⟨r, w, left, few, spelled, ?_, hd⟩
    have latest' : (((values, kind) :: declared).getLast?.map Prod.snd).or latest =
        (declared.getLast?.map Prod.snd).or (some kind) := by
      rw [List.getLast?_cons]
      cases declared.getLast? <;> rfl
    rw [latest', Hints.declaredOperands, List.flatMap_cons, List.length_append, ← Nat.add_assoc]
    exact declaring

/-! ### The mask -/

theorem Declaring.impliesVstem (h : p.Declaring latest n w) :
    p.impliesVstem = decide (latest ≠ none ∧ latest ≠ some .vstem) := by
  rw [Progress.impliesVstem, h.found, h.counts, h.latestStem]
  cases latest with
  | none => rfl
  | some kind => cases kind <;> rfl

/-- Before the mask, the operands that wait are stem hints too, but for the width, and but for those
before a hint mask that follow vertical stems. -/
theorem Declaring.stemsForMask (h : p.Declaring latest n (w + k)) (few : w ≤ 1) (even : k % 2 = 0)
    (any : 0 < n + k) {kind : MaskKind} (hq : p.stemsForMask kind = .ok q) :
    Maskless q.made ∧ 0 < q.stems ∧
      2 * q.stems = if kind = .hint ∧ latest = some .vstem then n else n + k := by
  have stems := h.stems
  have waiting := h.waiting
  cases kind with
  | hint =>
    have done := stemsForHintMask_eq_ok hq
    by_cases implied : latest ≠ none ∧ latest ≠ some .vstem
    · have found : p.stemFound = true := h.found.trans (Option.isSome_iff_ne_none.mpr implied.1)
      rw [implyVstem, if_pos (h.impliesVstem.trans (decide_eq_true implied))] at done
      rcases done with ⟨hints, rfl⟩ | ⟨-, notFound, -⟩
      · rw [if_neg fun vertical => implied.2 vertical.2]
        refine ⟨h.maskless.cons rfl, Nat.pos_of_ne_zero hints, ?_⟩
        simp only [countStems, make]
        omega
      · exact absurd (notFound.symm.trans found) Bool.false_ne_true
    · have explicit := Bool.eq_false_iff.mp (h.impliesVstem.trans (decide_eq_false implied))
      rw [implyVstem, if_neg explicit] at done
      rcases done with ⟨hints, rfl⟩ | ⟨-, notFound, r, hr, rfl⟩
      · have declared : latest ≠ none := fun none => hints (by
          have zero := h.undeclared none
          omega)
        have vertical : latest = some .vstem :=
          Decidable.of_not_not fun other => implied ⟨declared, other⟩
        rw [if_pos ⟨rfl, vertical⟩]
        exact ⟨h.maskless, Nat.pos_of_ne_zero hints, stems⟩
      · have none : latest = none := by
          rw [h.found, Option.isSome_eq_false_iff] at notFound
          exact Option.isNone_iff_eq_none.mp notFound
        have zero := h.undeclared none
        rw [none, if_neg (fun vertical => by cases vertical.2)]
        rcases hr with ⟨odd, -, hr⟩ | ⟨notOdd, rfl⟩
        · obtain ⟨r', hwidth, rfl⟩ := takeStemWidth_eq_ok hr
          refine ⟨maskless_takeWidth (q := r') h.maskless hwidth, ?_⟩
          simp only
          omega
        · have even' : ¬r.stemOperands % 2 = 1 := fun odd => notOdd ⟨odd, h.noPath⟩
          refine ⟨h.maskless, ?_⟩
          simp only
          omega
  | counter =>
    simp only [Progress.stemsForMask, stemsForCounterMask] at hq
    split at hq
    · cases hq
    · cases hq
      rw [if_neg (fun vertical => by cases vertical.1)]
      refine ⟨h.maskless, ?_⟩
      simp only [countStems]
      omega

/-- The last of the instructions that hold a mask is the mask itself. -/
theorem exists_getLast?_maskInstructions (kind : MaskKind) (bytes : List UInt8) :
    ∃ form value,
      (maskInstructions kind bytes).getLast? = some (.withValue (.mask kind form) value) := by
  unfold maskInstructions
  split
  · exact ⟨_, _, List.getLast?_concat⟩
  · exact ⟨_, _, rfl⟩

theorem isInt_of_getLast?_mask {front : List Instruction} {kind : MaskKind} {bytes : List UInt8}
    {i : Instruction} (h : (front ++ maskInstructions kind bytes).getLast? = some i) :
    i.isInt = false := by
  obtain ⟨form, value, last⟩ := exists_getLast?_maskInstructions kind bytes
  rw [List.getLast?_append, last] at h
  cases h
  rfl

/-- Once a mask was made, it stays behind what was made before. -/
theorem begins_mask (p : Progress) (kind : MaskKind) {bytes : List UInt8} (some : bytes ≠ []) :
    (p.mask kind bytes).Begins (p.instructions ++ maskInstructions kind bytes) := by
  refine ⟨[], ?_, Nat.le_of_eq ?_⟩
  · rw [Progress.mask, if_neg (by simpa using some), List.reverse_append, instructions,
      List.reverse_reverse]
    rfl
  · rw [Progress.mask, if_neg (by simpa using some)]
    rfl

end Progress

/-- **The first mask has a byte for each eight stem hints**, two operands to a hint. It is made of the
bytes after its operator. -/
theorem mask_of_decode {sets : SubroutineSets} {hints : Hints} {kind : MaskKind}
    {front rest : List UInt8} {list : List Instruction} (paired : hints.Paired)
    (any : 0 < hints.operands) (spelled : Spells (hints.tokens kind) front)
    (h : decode sets (front ++ rest) = .ok list) :
    ∃ bytes after before later, rest = bytes ++ after ∧
      bytes.length = (hints.counted kind / 2 + 7) / 8 ∧
      list = before ++ Progress.maskInstructions kind bytes ++ later ∧ Maskless before := by
  obtain ⟨e, p, q, hd, hq, rfl⟩ := decode_eq_ok h
  obtain ⟨left, spelled, pushed⟩ := decodeBytes_operands spelled
  rw [pushed] at hd
  have few : 0 + hints.width.toList.length ≤ 1 := by
    cases hints.width with
    | none => exact Nat.zero_le 1
    | some width => exact Nat.le_refl 1
  obtain ⟨r, w, left, few, spelled, declaring, hd⟩ :=
    (Progress.declaring_start.operands hints.width.toList).declared few paired.1 spelled hd
  rw [Nat.zero_add, Option.or_none] at declaring
  obtain ⟨left, spelled, pushed⟩ := decodeBytes_operands spelled
  rw [pushed] at hd
  obtain ⟨left, next, spelled, performed, hd⟩ := exists_perform_of_spells spelled hd
  cases spelled
  obtain ⟨s, bytes, after, hs, hbytes, rfl⟩ := perform_mask_eq_ok performed
  obtain ⟨length, -, hrest⟩ := Progress.maskBytes_eq_ok hbytes
  obtain ⟨maskless, positive, stems⟩ :=
    (declaring.operands hints.last).stemsForMask few paired.2 any hs
  have counted : 2 * s.stems = hints.counted kind := stems
  have length' : bytes.length = (hints.counted kind / 2 + 7) / 8 := by
    rw [length, Progress.maskLength]
    omega
  have some : bytes ≠ [] := by
    rintro rfl
    rw [List.length_nil] at length'
    omega
  have begins : (Next.go (s.mask kind bytes) after).progress.Begins
      (s.instructions ++ Progress.maskInstructions kind bytes) := s.begins_mask kind some
  have ended :=
    (Progress.invariant_begins fun i => Progress.isInt_of_getLast?_mask).next begins hd
  have front : q.Begins (s.instructions ++ Progress.maskInstructions kind bytes) := by
    rcases hq with rfl | rfl
    · exact ended
    · exact ended.make (.plain .ret)
  obtain ⟨later, hlater⟩ := front.instructions
  refine ⟨bytes, after, s.instructions, later, hrest, length', hlater, ?_⟩
  exact fun i hi => maskless i (List.mem_reverse.mp hi)

/-- Horizontal stems, and vertical stems without an operator before the mask. -/
theorem mask_of_decode_implied :
    let hints : Hints := ⟨some (.int 5), [([.int 10, .int 20], .hstem)], [.int 30, .int 40]⟩
    let list : List Instruction := [.withValue .width 5, .int 10, .int 20, .plain (.stem .hstem),
      .int 30, .int 40, .plain (.stem .vstem), .withValue (.mask .hint .one) (-1073741824),
      .plain .endchar]
    hints.Paired ∧ 0 < hints.operands ∧
      Spells (hints.tokens .hint) [144, 149, 159, 1, 169, 179, 19] ∧
      decode ⟨⟨.empty⟩, none⟩ ([144, 149, 159, 1, 169, 179, 19] ++ [192, 14]) = .ok list ∧
      ∃ bytes after before later, [192, 14] = bytes ++ after ∧
        bytes.length = (hints.counted .hint / 2 + 7) / 8 ∧
        list = before ++ Progress.maskInstructions .hint bytes ++ later ∧ Maskless before := by
  intro hints list
  have paired : hints.Paired := ⟨by decide, by decide⟩
  have any : 0 < hints.operands := by decide
  have spelled : Spells (hints.tokens .hint) [144, 149, 159, 1, 169, 179, 19] :=
    .cons rfl (.cons rfl (.cons rfl (.cons rfl (.cons rfl (.cons rfl (.cons rfl .nil))))))
  have decoded : decode ⟨⟨.empty⟩, none⟩ ([144, 149, 159, 1, 169, 179, 19] ++ [192, 14]) =
      .ok list := by cbv
  exact ⟨paired, any, spelled, decoded, mask_of_decode paired any spelled decoded⟩

/-- After eight vertical stems, a ninth before a hint mask is not counted: the mask has one byte. -/
theorem decode_vstem_hintMask :
    ¬∀ sets (hints : Hints) kind front rest list, hints.Paired → 0 < hints.operands →
      Spells (hints.tokens kind) front → decode sets (front ++ rest) = .ok list →
      ∃ bytes after before later, rest = bytes ++ after ∧
        bytes.length = (hints.operands / 2 + 7) / 8 ∧
        list = before ++ Progress.maskInstructions kind bytes ++ later ∧ Maskless before := by
  intro h
  let hints : Hints := ⟨none, [(List.replicate 16 (.int 0), .vstem)], [.int 0, .int 0]⟩
  let front : List UInt8 := List.replicate 16 139 ++ [3, 139, 139, 19]
  let list : List Instruction := List.replicate 16 (.int 0) ++ [.plain (.stem .vstem),
    .int 0, .int 0, .withValue (.mask .hint .one) (-16777216), .int (-11), .plain .endchar]
  have spelled : Spells (hints.tokens .hint) front := by
    repeat' first | exact .nil | refine .cons rfl ?_
  have decoded : decode ⟨⟨.empty⟩, none⟩ (front ++ [255, 128, 14]) = .ok list := by cbv
  obtain ⟨bytes, after, before, later, -, length, hlist, -⟩ :=
    h _ hints .hint front _ _ ⟨by decide, by decide⟩ (by decide) spelled decoded
  have two : bytes.length = 2 := length.trans (by decide)
  have held : Instruction.withValue (.mask .hint .two) (Progress.maskValue bytes) ∈
      Progress.maskInstructions .hint bytes := by
    rw [Progress.maskInstructions, two]
    exact List.mem_singleton_self _
  have absent : ∀ i ∈ list, i.op ≠ .mask .hint .two := by decide
  exact absent _ (hlist ▸ List.mem_append_left _ (List.mem_append_right _ held)) rfl

end CompactFont.Charstring
