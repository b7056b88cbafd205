import CompactFont.Dict.Operand
import CompactFont.Proofs.Text.Decimal

/-!
# The text of a real number

A real number is read by its text: what the nibbles before the terminator spell, and a zero as the exponent
if an exponent mark ends it (`RealNumber.text`). Nothing spelled is zero; else the text has to spell a
decimal number, and the value is that one (`RealNumber.Denotes`).

A text has 64 characters at most, and a longer one is a fault (`RealNumber.toFloat_text`). This is found out
before a nibble is looked at: where 64 characters are spelled and one more nibble follows, this is a fault
even if it is the reserved one, which spells nothing (`RealNumber.StopsAtReserved`).
-/

namespace CompactFont.RealNumber

/-- The nibble that spells nothing. -/
def reserved : UInt8 := 13

/-- What the nibbles before the terminator spell. -/
def spelledText (bytes : List UInt8) : List Char := (spelled bytes).flatMap characters

/-- An exponent mark ends the text. -/
def EndsInMark (text : List Char) : Prop := ['E'] <:+ text ∨ ['E', '-'] <:+ text

instance (text : List Char) : Decidable (EndsInMark text) := inferInstanceAs (Decidable (_ ∨ _))

/-- The text of a real number: what is spelled, with a zero after an exponent mark that ends it. -/
def text (bytes : List UInt8) : List Char :=
  if EndsInMark (spelledText bytes) then spelledText bytes ++ ['0'] else spelledText bytes

/-- There is no room for one more character where the last nibble comes, which spells nothing. -/
def StopsAtReserved (bytes : List UInt8) : Prop :=
  (spelledText bytes).length = textLimit ∧ (spelled bytes).getLast? = some reserved

instance (bytes : List UInt8) : Decidable (StopsAtReserved bytes) :=
  inferInstanceAs (Decidable (_ ∧ _))

/-- What a text stands for. -/
inductive Denotes : List Char → Except ReadFault Float → Prop where
  /-- No text is zero. -/
  | nothing : Denotes [] (.ok 0)
  /-- A text that spells a number is that number. -/
  | number {text : List Char} {d : Decimal} (spells : d.Spells text) : Denotes text (.ok d.toFloat)
  /-- A text that spells no number is a fault. -/
  | noNumber {text : List Char} (some : text ≠ []) (none : ∀ d : Decimal, ¬d.Spells text) :
    Denotes text (.error .badValue)

/-! ### Spelling -/

/-- A nibble before the terminator spells nothing just if it is the reserved one. -/
theorem characters_eq_nil_iff {bytes : List UInt8} {nibble : UInt8} (h : nibble ∈ spelled bytes) :
    characters nibble = [] ↔ nibble = reserved := by
  have other : nibble ≠ terminator := by
    simpa using List.all_eq_true.mp List.all_takeWhile nibble h
  have half : nibble.toNat < 16 := by
    obtain ⟨b, -, hb⟩ := List.mem_flatMap.mp ((List.takeWhile_sublist _).mem h)
    have size := b.toNat_lt
    rcases (by simpa using hb : nibble = b >>> 4 ∨ nibble = b &&& 0xF) with rfl | rfl
    · simp
      omega
    · rw [UInt8.toNat_and]
      exact Nat.lt_succ_of_le Nat.and_le_right
  have each : ∀ n < 16, UInt8.ofNat n ≠ terminator →
      (characters (UInt8.ofNat n) = [] ↔ UInt8.ofNat n = reserved) := by decide
  have same : UInt8.ofNat nibble.toNat = nibble := UInt8.ofNat_toNat
  rw [← same] at other ⊢
  exact each nibble.toNat half other

/-- What the nibbles spell does not fit in after a text, or it does, but the text is full where the last of
them comes, which spells nothing. -/
def Overfills (before : List Char) (nibbles : List UInt8) : Prop :=
  textLimit < (before ++ nibbles.flatMap characters).length ∨
    (before ++ nibbles.flatMap characters).length = textLimit ∧
      ∃ last, nibbles.getLast? = some last ∧ characters last = []

/-- A full text is overfilled by any nibble. -/
theorem overfills_of_full {before : List Char} (full : before.length = textLimit) (nibble : UInt8)
    (nibbles : List UInt8) : Overfills before (nibble :: nibbles) := by
  obtain ⟨last, isLast⟩ : ∃ last, (nibble :: nibbles).getLast? = some last :=
    ⟨_, List.getLast?_eq_some_getLast (List.cons_ne_nil nibble nibbles)⟩
  by_cases nothing : (nibble :: nibbles).flatMap characters = []
  · refine .inr ⟨by rw [nothing, List.append_nil, full], last, isLast, ?_⟩
    exact List.flatMap_eq_nil_iff.mp nothing last (List.mem_of_getLast? isLast)
  · have := List.length_pos_iff.mpr nothing
    exact .inl (by rw [List.length_append]; omega)

/-- What a nibble spells can be added before, unless the text is full. -/
theorem overfills_cons {before : List Char} (notFull : before.length ≠ textLimit) (nibble : UInt8)
    (nibbles : List UInt8) :
    Overfills before (nibble :: nibbles) ↔ Overfills (before ++ characters nibble) nibbles := by
  unfold Overfills
  rw [List.flatMap_cons, ← List.append_assoc]
  cases nibbles with
  | nil =>
    -- The nibble is the last one before, and there is none afterwards.
    simp only [List.flatMap_nil, List.append_nil, List.length_append, List.getLast?_singleton,
      List.getLast?_nil]
    constructor
    · rintro (exceeds | ⟨full, last, isLast, nothing⟩)
      · exact .inl exceeds
      · cases isLast
        rw [nothing] at full
        exact absurd full notFull
    · rintro (exceeds | ⟨-, last, isLast, -⟩)
      · exact .inl exceeds
      · cases isLast
  | cons next nibbles => rw [List.getLast?_cons_cons]

/-- Nibbles are added as long as there is room, and none is looked at where there is none. -/
theorem foldlM_extend (nibbles : List UInt8) {before : List Char} (room : before.length ≤ textLimit) :
    (Overfills before nibbles → nibbles.foldlM extend before = .error .limitExceeded) ∧
    (¬Overfills before nibbles →
      nibbles.foldlM extend before = .ok (before ++ nibbles.flatMap characters)) := by
  induction nibbles generalizing before with
  | nil =>
    have fits : ¬Overfills before [] := by simpa [Overfills] using room
    constructor
    · intro exceeds
      exact absurd exceeds fits
    · intro _
      rw [List.flatMap_nil, List.append_nil]
      rfl
  | cons nibble nibbles ih =>
    rw [List.foldlM_cons, extend]
    by_cases full : before.length = textLimit
    · have overfilled := overfills_of_full full nibble nibbles
      rw [if_pos (.inl full)]
      exact ⟨fun _ => rfl, fun fits => absurd overfilled fits⟩
    · by_cases exceeds : textLimit < before.length + (characters nibble).length
      · have overfilled : Overfills before (nibble :: nibbles) := by
          apply Or.inl
          rw [List.flatMap_cons, List.length_append, List.length_append]
          omega
        rw [if_pos (.inr exceeds)]
        exact ⟨fun _ => rfl, fun fits => absurd overfilled fits⟩
      · rw [if_neg (by simp [full, exceeds]), overfills_cons full, List.flatMap_cons,
          ← List.append_assoc]
        exact ih (by rw [List.length_append]; omega)

/-- A text has room for the nibbles of a number, unless it is full where a reserved one is the last. -/
theorem overfills_iff (bytes : List UInt8) :
    Overfills [] (spelled bytes) ↔
      textLimit < (spelledText bytes).length ∨ StopsAtReserved bytes := by
  refine or_congr_right (and_congr_right fun _ => ?_)
  constructor
  · rintro ⟨last, isLast, nothing⟩
    rw [isLast, (characters_eq_nil_iff (List.mem_of_getLast? isLast)).mp nothing]
  · intro isLast
    exact ⟨reserved, isLast, rfl⟩

theorem completeExponent_eq (text : List Char) :
    completeExponent text =
      if EndsInMark text then
        if text.length = textLimit then .error .limitExceeded else .ok (text ++ ['0'])
      else .ok text := by
  simp only [completeExponent, Bool.or_eq_true, List.isSuffixOf_iff_suffix]
  rfl

/-- The text is spelled, unless it is too long. -/
theorem spell_eq (bytes : List UInt8) :
    spell bytes =
      if textLimit < (text bytes).length ∨ StopsAtReserved bytes then .error .limitExceeded
      else .ok (text bytes) := by
  have empty : ([] : List Char).length ≤ textLimit := Nat.zero_le _
  have nibbles := foldlM_extend (spelled bytes) empty
  rw [List.nil_append, overfills_iff] at nibbles
  rw [spell]
  by_cases exceeds : textLimit < (spelledText bytes).length ∨ StopsAtReserved bytes
  · have longer : (spelledText bytes).length ≤ (text bytes).length := by
      unfold text
      split
      · rw [List.length_append]
        exact Nat.le_add_right _ _
      · exact Nat.le_refl _
    rw [nibbles.1 exceeds, if_pos (exceeds.imp_left fun long => Nat.lt_of_lt_of_le long longer)]
    rfl
  · rw [nibbles.2 exceeds]
    obtain ⟨short, goesOn⟩ := not_or.mp exceeds
    show completeExponent (spelledText bytes) = _
    rw [completeExponent_eq, text]
    by_cases mark : EndsInMark (spelledText bytes)
    · simp only [if_pos mark, List.length_append, List.length_singleton]
      by_cases full : (spelledText bytes).length = textLimit
      · rw [if_pos full, if_pos (.inl (by omega))]
      · rw [if_neg full, if_neg (not_or.mpr ⟨by omega, goesOn⟩)]
    · simp only [if_neg mark]
      rw [if_neg exceeds]

/-! ### The value -/

/-- The number that a text is read as. -/
def valueOf (text : List Char) : Except ReadFault Float :=
  if text.isEmpty then .ok 0
  else match Decimal.ofText? text with
    | some d => .ok d.toFloat
    | none => .error .badValue

theorem toFloat_eq (bytes : List UInt8) : toFloat bytes = spell bytes >>= valueOf := rfl

/-- A text is read as what it stands for. -/
theorem denotes_valueOf (text : List Char) : Denotes text (valueOf text) := by
  unfold valueOf
  split
  · rename_i empty
    rw [List.isEmpty_iff.mp empty]
    exact .nothing
  · rename_i some
    split
    · rename_i d found
      exact .number (Decimal.ofText?_eq_some_iff.mp found)
    · rename_i none
      refine .noNumber (fun empty => some (List.isEmpty_iff.mpr empty)) fun d spells => ?_
      rw [Decimal.ofText?_eq_some_iff.mpr spells] at none
      cases none

/-- Only a text that is too long is a fault for its length. -/
theorem Denotes.ne_limitExceeded {text : List Char} {value : Except ReadFault Float}
    (h : Denotes text value) : value ≠ .error .limitExceeded := by
  rintro rfl
  cases h

/-- **A real number denotes its text.** It is too long just if its text has more than 64 characters, or if
there are 64 where a reserved nibble is the last. Otherwise its text stands for it. -/
theorem toFloat_text (bytes : List UInt8) :
    (toFloat bytes = .error .limitExceeded ↔
      textLimit < (text bytes).length ∨ StopsAtReserved bytes) ∧
    (toFloat bytes ≠ .error .limitExceeded → Denotes (text bytes) (toFloat bytes)) := by
  rw [toFloat_eq, spell_eq]
  by_cases long : textLimit < (text bytes).length ∨ StopsAtReserved bytes
  · rw [if_pos long]
    exact ⟨⟨fun _ => long, fun _ => rfl⟩, fun h => absurd rfl h⟩
  · rw [if_neg long]
    have denotes : Denotes (text bytes) (Except.ok (text bytes) >>= valueOf) :=
      denotes_valueOf (text bytes)
    refine ⟨⟨fun fault => ?_, fun h => absurd h long⟩, fun _ => denotes⟩
    exact absurd fault denotes.ne_limitExceeded

/-- A reserved nibble, 62 ones and an exponent mark, after which a zero is the last of 64 characters. -/
def fullText : List UInt8 := 0xD1 :: (List.replicate 30 0x11 ++ [0x1B, 0xFF])

/-- A text of 64 characters is not too long. -/
theorem toFloat_text_full :
    toFloat fullText ≠ .error .limitExceeded ∧ Denotes (text fullText) (toFloat fullText) := by
  have fits : toFloat fullText ≠ .error .limitExceeded :=
    mt (toFloat_text fullText).1.mp (by decide +kernel)
  exact ⟨fits, (toFloat_text fullText).2 fits⟩

/-- 64 ones, and a reserved nibble before the terminator. -/
def fullThenReserved : List UInt8 := List.replicate 32 0x11 ++ [0xDF]

/-- A text of 64 characters is a fault if a reserved nibble is the last. -/
theorem toFloat_fullThenReserved :
    ¬(toFloat fullThenReserved = .error .limitExceeded ↔ textLimit < (text fullThenReserved).length) := by
  have fault : toFloat fullThenReserved = .error .limitExceeded := by
    rw [toFloat_eq, spell_eq, if_pos (by decide +kernel)]
    rfl
  have short : ¬textLimit < (text fullThenReserved).length := by decide +kernel
  exact fun same => short (same.mp fault)

end CompactFont.RealNumber
