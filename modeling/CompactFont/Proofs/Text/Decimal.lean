import CompactFont.Proofs.Outcome
import CompactFont.Text.Decimal

/-!
# The spelling of decimal numbers

Which texts spell a decimal number, and which number, is said here by rules (`Decimal.Spells`): an optional
minus sign, digits with at most one point before, among or after them, and optionally the letter E with an
optional minus sign and digits. The digits before the exponent, and those in it, are one at least.

A text is taken apart from the front, digits as far as they go. This finds the parts that the rules tell, so
that a number is found just where one is spelled, and it is that one (`Decimal.ofText?_eq_some_iff`).
-/

namespace CompactFont.Decimal

/-- All characters are digits. -/
def IsDigits (text : List Char) : Prop := ∀ c ∈ text, c.isDigit = true

/-- The text is the end of a number, and spells its exponent. -/
inductive SpellsExponent : Int → List Char → Prop where
  /-- Nothing stands for zero. -/
  | none : SpellsExponent 0 []
  /-- The letter E, and digits. -/
  | positive {text : List Char} (digits : IsDigits text) (some : text ≠ []) :
      SpellsExponent (natOfDigits (text.map digit)) ('E' :: text)
  /-- The letter E, a minus sign, and digits. -/
  | negative {text : List Char} (digits : IsDigits text) (some : text ≠ []) :
      SpellsExponent (-natOfDigits (text.map digit)) ('E' :: '-' :: text)

/-- The text spells digits, of which so many are after the point. -/
inductive SpellsDigits : (digits : List Nat) → (places : Nat) → List Char → Prop where
  /-- There is no point. -/
  | whole {text : List Char} (digits : IsDigits text) (some : text ≠ []) :
      SpellsDigits (text.map digit) 0 text
  /-- There is a point. -/
  | point {whole fraction : List Char} (before : IsDigits whole) (after : IsDigits fraction)
      (some : whole ++ fraction ≠ []) :
      SpellsDigits ((whole ++ fraction).map digit) fraction.length (whole ++ '.' :: fraction)

/-- The text spells the number. -/
inductive Spells : Decimal → List Char → Prop where
  /-- There is no sign. -/
  | positive {digits : List Nat} {places : Nat} {exponent : Int} {front back : List Char}
      (before : SpellsDigits digits places front) (after : SpellsExponent exponent back) :
      Spells ⟨false, digits, places, exponent⟩ (front ++ back)
  /-- There is a minus sign. -/
  | negative {digits : List Nat} {places : Nat} {exponent : Int} {front back : List Char}
      (before : SpellsDigits digits places front) (after : SpellsExponent exponent back) :
      Spells ⟨true, digits, places, exponent⟩ ('-' :: (front ++ back))

/-! ### Digits in front -/

/-- The text does not go on with a digit. -/
def NoDigitNext (text : List Char) : Prop := ∀ c ∈ text.head?, c.isDigit = false

theorem noDigitNext_nil : NoDigitNext [] := by
  intro c hc
  cases hc

theorem noDigitNext_cons {c : Char} (h : c.isDigit = false) (text : List Char) :
    NoDigitNext (c :: text) := by
  intro d hd
  cases hd
  exact h

theorem SpellsExponent.noDigitNext {exponent : Int} {text : List Char}
    (h : SpellsExponent exponent text) : NoDigitNext text := by
  cases h with
  | none => exact noDigitNext_nil
  | positive | negative => exact noDigitNext_cons rfl _

/-- Digits are split off as far as they go. -/
theorem spanDigits_append {front rest : List Char} (digits : IsDigits front)
    (stop : NoDigitNext rest) : spanDigits (front ++ rest) = (front.map digit, rest) := by
  have taken : rest.takeWhile Char.isDigit = [] := by
    cases rest with
    | nil => rfl
    | cons c rest => exact List.takeWhile_cons_of_neg (by simp [stop c rfl])
  have left : rest.dropWhile Char.isDigit = rest := by
    cases rest with
    | nil => rfl
    | cons c rest => exact List.dropWhile_cons_of_neg (by simp [stop c rfl])
  rw [spanDigits, List.takeWhile_append_of_pos digits, List.dropWhile_append_of_pos digits, taken, left,
    List.append_nil]

/-- What is split off are digits, and the rest does not go on with one. -/
theorem exists_spanDigits (text : List Char) :
    ∃ front rest, text = front ++ rest ∧ IsDigits front ∧ NoDigitNext rest ∧
      spanDigits text = (front.map digit, rest) := by
  refine ⟨text.takeWhile Char.isDigit, text.dropWhile Char.isDigit,
    List.takeWhile_append_dropWhile.symm, ?_, ?_, rfl⟩
  · intro c hc
    exact List.all_eq_true.mp List.all_takeWhile c hc
  · intro c hc
    have stop := List.head?_dropWhile_not Char.isDigit text
    rw [hc] at stop
    exact stop

/-! ### Parts -/

/-- The text is all digits, if nothing is left after the digits in front. -/
theorem spanDigits_eq_nil {text : List Char} {digits : List Nat}
    (h : spanDigits text = (digits, [])) : IsDigits text ∧ digits = text.map digit := by
  obtain ⟨front, rest, rfl, isDigits, -, split⟩ := exists_spanDigits text
  cases split.symm.trans h
  rw [List.append_nil]
  exact ⟨isDigits, rfl⟩

/-- There is a minus sign in front, or there is none. -/
theorem spanMinus_cases (text : List Char) :
    (∃ rest, text = '-' :: rest ∧ spanMinus text = (true, rest)) ∨ spanMinus text = (false, text) := by
  unfold spanMinus
  split
  · exact .inl ⟨_, rfl, rfl⟩
  · exact .inr rfl

theorem spanMinus_of_ne {c : Char} (h : c ≠ '-') (text : List Char) :
    spanMinus (c :: text) = (false, c :: text) := by
  rcases spanMinus_cases (c :: text) with ⟨rest, sign, -⟩ | none
  · exact absurd (List.cons.inj sign).1 h
  · exact none

theorem IsDigits.spanMinus {text : List Char} (digits : IsDigits text) :
    spanMinus text = (false, text) := by
  cases text with
  | nil => rfl
  | cons c text =>
    refine spanMinus_of_ne ?_ text
    rintro rfl
    exact absurd (digits '-' List.mem_cons_self) (by decide)

theorem spanDigits_of_isDigits {text : List Char} (digits : IsDigits text) :
    spanDigits text = (text.map digit, []) := by
  simpa using spanDigits_append digits noDigitNext_nil

/-- After the letter E, and a minus sign if there is one, there are digits and nothing else. -/
theorem exponentOfText?_mark {text rest : List Char} {negative : Bool}
    (sign : spanMinus text = (negative, rest)) {exponent : Int} :
    exponentOfText? ('E' :: text) = some exponent ↔ IsDigits rest ∧ rest ≠ [] ∧
      exponent =
        if negative then -(natOfDigits (rest.map digit) : Int) else natOfDigits (rest.map digit) := by
  simp only [exponentOfText?, sign]
  constructor
  · intro h
    split at h
    · cases h
    · cases h
    · rename_i digits some found
      cases h
      obtain ⟨isDigits, rfl⟩ := spanDigits_eq_nil found
      exact ⟨isDigits, fun none => some (by rw [none]; rfl), rfl⟩
  · rintro ⟨digits, some, rfl⟩
    rw [spanDigits_of_isDigits digits]
    cases rest with
    | nil => exact absurd rfl some
    | cons c rest => rfl

/-- An exponent is found just where one is spelled. -/
theorem exponentOfText?_eq_some_iff {text : List Char} {exponent : Int} :
    exponentOfText? text = some exponent ↔ SpellsExponent exponent text := by
  constructor
  · intro h
    cases text with
    | nil =>
      cases h
      exact .none
    | cons c text =>
      by_cases mark : c = 'E'
      · subst mark
        rcases spanMinus_cases text with ⟨rest, rfl, sign⟩ | sign
        · obtain ⟨digits, some, rfl⟩ := (exponentOfText?_mark sign).mp h
          exact .negative digits some
        · obtain ⟨digits, some, rfl⟩ := (exponentOfText?_mark sign).mp h
          exact .positive digits some
      · unfold exponentOfText? at h
        split at h
        · rename_i noText
          cases noText
        · rename_i found
          exact absurd (List.cons.inj found).1 mark
        · cases h
  · intro h
    cases h with
    | none => rfl
    | positive digits some => exact (exponentOfText?_mark digits.spanMinus).mpr ⟨digits, some, rfl⟩
    | negative digits some => exact (exponentOfText?_mark rfl).mpr ⟨digits, some, rfl⟩

/-- Splits a point and the digits after it off the front of a text, if there is a point. -/
def spanFraction : List Char → List Nat × List Char
  | '.' :: text => spanDigits text
  | text => ([], text)

theorem spanFraction_of_ne {text : List Char} (noPoint : text.head? ≠ some '.') :
    spanFraction text = ([], text) := by
  unfold spanFraction
  split
  · exact absurd rfl noPoint
  · rfl

/-- Splits digits off the front of a text, and a point and the digits after it if there is one. -/
def spanPoint (text : List Char) : List Nat × List Nat × List Char :=
  ((spanDigits text).1, spanFraction (spanDigits text).2)

/-- A number is its sign, its digits and its exponent. -/
theorem ofText?_eq (text : List Char) :
    ofText? text = do
      let (whole, fraction, left) := spanPoint (spanMinus text).2
      guard (!(whole ++ fraction).isEmpty)
      let exponent ← exponentOfText? left
      return ⟨(spanMinus text).1, whole ++ fraction, fraction.length, exponent⟩ := rfl

/-- There is a number if there are digits and an exponent. -/
theorem ofText?_of_span {text rest left : List Char} {negative : Bool} {whole fraction : List Nat}
    (sign : spanMinus text = (negative, rest)) (found : spanPoint rest = (whole, fraction, left)) :
    ofText? text =
      if whole ++ fraction = [] then none
      else (exponentOfText? left).map fun exponent =>
        ⟨negative, whole ++ fraction, fraction.length, exponent⟩ := by
  rw [ofText?_eq, sign, found]
  by_cases empty : whole ++ fraction = []
  · rw [if_pos empty]
    show (guard _ >>= _) = none
    rw [guard_of_not (by simp [empty])]
    rfl
  · rw [if_neg empty]
    show (guard _ >>= _) = _
    rw [guard_of (by simp [empty])]
    cases exponentOfText? left <;> rfl

/-- What is split off spells digits, if there are any. -/
theorem spellsDigits_of_spanPoint {text left : List Char} {whole fraction : List Nat}
    (found : spanPoint text = (whole, fraction, left)) (some : whole ++ fraction ≠ []) :
    ∃ front, text = front ++ left ∧ SpellsDigits (whole ++ fraction) fraction.length front := by
  obtain ⟨front, rest, rfl, digits, -, split⟩ := exists_spanDigits text
  rw [spanPoint, split] at found
  by_cases point : rest.head? = Option.some '.'
  · obtain ⟨after, rfl⟩ := List.head?_eq_some_iff.mp point
    obtain ⟨back, left', rfl, digits', -, split'⟩ := exists_spanDigits after
    change (front.map digit, spanDigits (back ++ left')) = _ at found
    rw [split'] at found
    cases found
    have spelled : SpellsDigits ((front ++ back).map digit) back.length (front ++ '.' :: back) :=
      .point digits digits' fun none => some (by rw [← List.map_append, none]; rfl)
    refine ⟨front ++ '.' :: back, by rw [List.append_assoc]; rfl, ?_⟩
    rwa [← List.map_append, List.length_map]
  · rw [spanFraction_of_ne point] at found
    cases found
    rw [List.append_nil] at some ⊢
    exact ⟨front, rfl, .whole digits fun none => some (by rw [none]; rfl)⟩

/-- Digits that are spelled are split off, up to what is no digit and no point. -/
theorem SpellsDigits.spanPoint {digits : List Nat} {places : Nat} {front left : List Char}
    (h : SpellsDigits digits places front) (stop : NoDigitNext left) (noPoint : left.head? ≠ some '.') :
    ∃ whole fraction, spanPoint (front ++ left) = (whole, fraction, left) ∧
      digits = whole ++ fraction ∧ places = fraction.length := by
  cases h with
  | whole isDigits some =>
    refine ⟨front.map digit, [], ?_, (List.append_nil _).symm, rfl⟩
    rw [Decimal.spanPoint, spanDigits_append isDigits stop, spanFraction_of_ne noPoint]
  | @point whole fraction before after some =>
    refine ⟨whole.map digit, fraction.map digit, ?_, List.map_append, (List.length_map _).symm⟩
    have split : spanDigits (whole ++ '.' :: (fraction ++ left)) =
        (whole.map digit, '.' :: (fraction ++ left)) :=
      spanDigits_append before (noDigitNext_cons rfl _)
    rw [List.append_assoc, List.cons_append, Decimal.spanPoint, split]
    exact congrArg (Prod.mk _) (spanDigits_append after stop)

theorem SpellsDigits.ne_nil {digits : List Nat} {places : Nat} {text : List Char}
    (h : SpellsDigits digits places text) : digits ≠ [] := by
  cases h with
  | whole isDigits some => simpa using some
  | point before after some => simpa using some

/-- No minus sign is in front of digits or a point. -/
theorem SpellsDigits.spanMinus {digits : List Nat} {places : Nat} {front : List Char}
    (h : SpellsDigits digits places front) (left : List Char) :
    spanMinus (front ++ left) = (false, front ++ left) := by
  have noMinus {c : Char} (hc : c.isDigit = true) : c ≠ '-' := by
    rintro rfl
    exact absurd hc (by decide)
  cases h with
  | whole isDigits some =>
    cases front with
    | nil => exact absurd rfl some
    | cons c front => exact spanMinus_of_ne (noMinus (isDigits c List.mem_cons_self)) _
  | @point whole fraction before after some =>
    cases whole with
    | nil => exact spanMinus_of_ne (by decide) _
    | cons c whole => exact spanMinus_of_ne (noMinus (before c List.mem_cons_self)) _

/-- Digits and an exponent that are spelled are found. -/
theorem ofText?_of_spells {digits : List Nat} {places : Nat} {exponent : Int}
    {text front back : List Char} {negative : Bool}
    (sign : Decimal.spanMinus text = (negative, front ++ back))
    (before : SpellsDigits digits places front) (after : SpellsExponent exponent back) :
    ofText? text = some ⟨negative, digits, places, exponent⟩ := by
  have noPoint : back.head? ≠ some '.' := by cases after <;> simp
  obtain ⟨whole, fraction, found, rfl, rfl⟩ := before.spanPoint after.noDigitNext noPoint
  rw [ofText?_of_span sign found, if_neg before.ne_nil, exponentOfText?_eq_some_iff.mpr after]
  rfl

/-- What is found, after a sign, are digits and an exponent that are spelled. -/
theorem exists_spelled_of_ofText? {text rest : List Char} {negative : Bool} {d : Decimal}
    (sign : Decimal.spanMinus text = (negative, rest)) (h : ofText? text = some d) :
    ∃ digits places exponent front back, rest = front ++ back ∧ SpellsDigits digits places front ∧
      SpellsExponent exponent back ∧ d = ⟨negative, digits, places, exponent⟩ := by
  obtain ⟨⟨whole, fraction, left⟩, found⟩ : ∃ parts, Decimal.spanPoint rest = parts := ⟨_, rfl⟩
  rw [ofText?_of_span sign found] at h
  by_cases empty : whole ++ fraction = []
  · rw [if_pos empty] at h
    cases h
  · rw [if_neg empty] at h
    obtain ⟨exponent, hexponent, rfl⟩ := Option.map_eq_some_iff.mp h
    obtain ⟨front, split, before⟩ := spellsDigits_of_spanPoint found empty
    exact ⟨_, _, exponent, front, left, split, before, exponentOfText?_eq_some_iff.mp hexponent, rfl⟩

/-- **A number is found just where one is spelled**, and it is that number. -/
theorem ofText?_eq_some_iff {text : List Char} {d : Decimal} :
    ofText? text = some d ↔ d.Spells text := by
  constructor
  · intro h
    rcases spanMinus_cases text with ⟨rest, rfl, sign⟩ | sign
    · obtain ⟨_, _, _, front, back, rfl, before, after, rfl⟩ := exists_spelled_of_ofText? sign h
      exact .negative before after
    · obtain ⟨_, _, _, front, back, rfl, before, after, rfl⟩ := exists_spelled_of_ofText? sign h
      exact .positive before after
  · intro h
    cases h with
    | positive before after => exact ofText?_of_spells (before.spanMinus _) before after
    | negative before after => exact ofText?_of_spells rfl before after

end CompactFont.Decimal
