import CompactFont.Proofs.FdSelect

/-!
# Glyphs that are looked up in order

A selector that is asked for all glyphs in order, from glyph 0 on, answers from the place where it
stands. What it answers is compared here with a search that starts at the first range for each glyph
anew and has no place (`FdSelect.fontDict?`). Where the selector finds something it finds the same, for
any ranges whatever (`Selector.answers_of_ascending`). It finds something for each glyph if the ranges
are as they should be: the first one starts at glyph 0, each ends where the next one starts, and the
last one before the sentinel (`FdSelect.InOrder`). The current range then holds the glyph before
(`Selector.Reaches`), so that one move is enough.
-/

namespace CompactFont

namespace FdSelect

/-- The Font DICT of the first of some ranges that holds a glyph. -/
def firstHolding? (sentinel glyph : UInt16) : List FdRange → Option UInt8
  | [] => none
  | range :: ranges =>
    if range.first ≤ glyph ∧ glyph < (ranges.head?.map (·.first)).getD sentinel then
      some range.fontDict
    else firstHolding? sentinel glyph ranges

/-- The Font DICT of a glyph: that of the first range that holds it. -/
def fontDict? (select : FdSelect) (glyph : UInt16) : Option UInt8 :=
  firstHolding? select.sentinel glyph select.ranges.toList

theorem lookup?_cons_zero (range : FdRange) (ranges : List FdRange) (sentinel glyph : UInt16) :
    lookup? ⟨(range :: ranges).toArray, sentinel⟩ 0 glyph =
      if range.first ≤ glyph ∧ glyph < (ranges.head?.map (·.first)).getD sentinel then
        some range.fontDict
      else none := by
  have bound : upperBound ⟨(range :: ranges).toArray, sentinel⟩ 0 =
      (ranges.head?.map (·.first)).getD sentinel := by
    cases ranges <;> rfl
  rw [← bound]
  change (guard (range.first ≤ glyph ∧ glyph < _) : Option Unit).bind (fun _ => some _) = _
  by_cases holds : range.first ≤ glyph ∧ glyph < upperBound ⟨(range :: ranges).toArray, sentinel⟩ 0
  · rw [guard_of holds, if_pos holds]
    rfl
  · rw [guard_of_not holds, if_neg holds]
    rfl

theorem lookup?_cons_succ (range : FdRange) (ranges : List FdRange) (sentinel glyph : UInt16)
    (i : Nat) : lookup? ⟨(range :: ranges).toArray, sentinel⟩ (i + 1) glyph =
      lookup? ⟨ranges.toArray, sentinel⟩ i glyph := by
  have next (j : Nat) : (range :: ranges).toArray[j + 1]? = ranges.toArray[j]? := by
    rw [List.getElem?_toArray, List.getElem?_toArray, List.getElem?_cons_succ]
  have bound : upperBound ⟨(range :: ranges).toArray, sentinel⟩ (i + 1) =
      upperBound ⟨ranges.toArray, sentinel⟩ i := by
    rw [upperBound, upperBound, next]
  rw [lookup?, lookup?, bound, next]

/-- The Font DICT that is assigned to a glyph is the one that the search finds. -/
theorem Assigns.fontDict?_eq {select : FdSelect} {glyph : UInt16} {fontDict : UInt8}
    (h : select.Assigns glyph fontDict) : select.fontDict? glyph = some fontDict := by
  obtain ⟨⟨ranges⟩, sentinel⟩ := select
  obtain ⟨i, found, before⟩ := h
  change firstHolding? sentinel glyph ranges = some fontDict
  induction ranges generalizing i with
  | nil => cases found
  | cons range ranges ih =>
    rw [firstHolding?]
    cases i with
    | zero =>
      rw [lookup?_cons_zero] at found
      split at found
      · rename_i holds
        rw [if_pos holds, found]
      · cases found
    | succ i =>
      have passed := before 0 (Nat.succ_pos i)
      rw [lookup?_cons_zero] at passed
      split at passed
      · cases passed
      · rename_i notHere
        rw [if_neg notHere]
        refine ih i ?_ fun j hj => ?_
        · rw [← lookup?_cons_succ range]
          exact found
        · rw [← lookup?_cons_succ range]
          exact before (j + 1) (Nat.succ_lt_succ hj)

/-- The last of all numbers is that of no glyph in a range, as ranges end before some number. -/
theorem fontDict?_last (select : FdSelect) : select.fontDict? 65535 = none := by
  obtain ⟨⟨ranges⟩, sentinel⟩ := select
  change firstHolding? sentinel 65535 ranges = none
  induction ranges with
  | nil => rfl
  | cons range ranges ih =>
    rw [firstHolding?, if_neg, ih]
    rintro ⟨-, beyond⟩
    have lt := UInt16.lt_iff_toNat_lt.mp beyond
    have size := UInt16.toNat_lt ((ranges.head?.map (·.first)).getD sentinel)
    exact absurd lt (Nat.not_lt.mpr (Nat.le_of_lt_succ size))

/-- The ranges are as they should be. -/
structure InOrder (select : FdSelect) : Prop where
  /-- There are some, and the first one starts at glyph 0. -/
  zero : (select.ranges.toList.head?.map (·.first)) = some 0
  /-- They start one after the other, and all before the sentinel. -/
  increasing : (select.ranges.toList.map (·.first) ++ [select.sentinel]).Pairwise (· < ·)

/-- A range ends after the glyph with which it starts. -/
theorem InOrder.first_lt {select : FdSelect} (h : select.InOrder) {i : Nat} {range : FdRange}
    (hi : select.ranges[i]? = some range) : range.first < select.upperBound i := by
  have inside : i < select.ranges.toList.length := by
    have := (Array.getElem?_eq_some_iff.mp hi).1
    simpa using this
  let starts := select.ranges.toList.map (·.first) ++ [select.sentinel]
  have here : starts[i]? = some range.first := by
    rw [List.getElem?_append_left (by simpa using inside), List.getElem?_map, Array.getElem?_toList,
      hi, Option.map_some]
  have next : starts[i + 1]? = some (select.upperBound i) := by
    unfold upperBound
    cases hnext : select.ranges[i + 1]? with
    | some next =>
      have := (Array.getElem?_eq_some_iff.mp hnext).1
      rw [List.getElem?_append_left (by simpa using this), List.getElem?_map,
        Array.getElem?_toList, hnext, Option.map_some]
    | none =>
      have last : i + 1 = (select.ranges.toList.map (·.first)).length := by
        have := Array.getElem?_eq_none_iff.mp hnext
        simp only [List.length_map, Array.length_toList] at inside ⊢
        omega
      rw [last, List.getElem?_concat_length]
  obtain ⟨hi', here'⟩ := List.getElem?_eq_some_iff.mp here
  obtain ⟨hn', next'⟩ := List.getElem?_eq_some_iff.mp next
  rw [← here', ← next']
  exact List.pairwise_iff_getElem.mp h.increasing i (i + 1) hi' hn' (Nat.lt_succ_self i)

/-- A range holds the glyphs from its first one to the next range. -/
theorem lookup?_of_le_of_lt {select : FdSelect} {i : Nat} {range : FdRange} {glyph : UInt16}
    (hi : select.ranges[i]? = some range) (le : range.first ≤ glyph)
    (lt : glyph < select.upperBound i) : select.lookup? i glyph = some range.fontDict := by
  rw [lookup?, hi]
  change (guard (range.first ≤ glyph ∧ glyph < _) : Option Unit).bind (fun _ => some _) = _
  rw [guard_of ⟨le, lt⟩]
  rfl

end FdSelect

/-- The glyphs whose numbers are below `n`, in order. -/
def glyphsBelow (n : Nat) : List UInt16 := (List.range n).map UInt16.ofNat

namespace Selector

/-- What is found for glyphs, one after the other, each from the place where the one before it was
looked for last. -/
def answers (s : Selector) : List UInt16 → List (Except FontFault UInt8)
  | [] => []
  | glyph :: glyphs => (s.selectFor glyph).1 :: (s.selectFor glyph).2.answers glyphs

/-- What is found does not depend on what is looked for later. -/
theorem answers_take (s : Selector) (glyphs : List UInt16) (k : Nat) :
    s.answers (glyphs.take k) = (s.answers glyphs).take k := by
  induction glyphs generalizing s k with
  | nil => simp [answers]
  | cons glyph glyphs ih =>
    cases k with
    | zero => rfl
    | succ k => simp [answers, ih]

/-! ### What is found -/

/-- **What a selector finds is what the search finds**, for glyphs in ascending order and any ranges. -/
theorem answers_of_ascending {s : Selector} {glyphs : List UInt16} {found : List UInt8}
    (ascending : glyphs.Pairwise (· ≤ ·)) (passed : ∀ glyph ∈ glyphs, s.Passed glyph)
    (h : s.answers glyphs = found.map .ok) :
    glyphs.map s.select.fontDict? = found.map some := by
  induction glyphs generalizing s found with
  | nil =>
    cases found with
    | nil => rfl
    | cons fontDict found => cases h
  | cons glyph glyphs ih =>
    cases found with
    | nil => cases h
    | cons fontDict found =>
      obtain ⟨first, others⟩ := List.cons.inj h
      obtain ⟨least, ascending⟩ := List.pairwise_cons.mp ascending
      have step : s.selectFor glyph = (.ok fontDict, (s.selectFor glyph).2) := Prod.ext first rfl
      obtain ⟨assigns, same, ahead⟩ := selectFor_eq_ok step (passed glyph List.mem_cons_self)
      have later := ih ascending (fun g hg => ahead.mono (least g hg)) others
      rw [same] at later
      rw [List.map_cons, List.map_cons, assigns.fontDict?_eq, later]

theorem ascending_glyphsBelow {n : Nat} (small : n ≤ 65536) :
    (glyphsBelow n).Pairwise (· ≤ ·) := by
  refine List.pairwise_map.mpr (List.Pairwise.imp_of_mem ?_ List.pairwise_lt_range)
  intro a b ha hb lt
  have := List.mem_range.mp ha
  have := List.mem_range.mp hb
  rw [UInt16.le_iff_toNat_le, UInt16.toNat_ofNat', UInt16.toNat_ofNat']
  omega

/-- Not all glyphs are found if the last of all numbers is among them. -/
theorem lt_of_answers_glyphsBelow {select : FdSelect} {n : Nat} {found : List UInt8}
    (h : (start select).answers (glyphsBelow n) = found.map .ok) : n < 65536 := by
  refine Nat.lt_of_not_le fun large => ?_
  have all : (glyphsBelow n).take 65536 = glyphsBelow 65536 := by
    rw [glyphsBelow, ← List.map_take, List.take_range, Nat.min_eq_left (by omega), glyphsBelow]
  have prefixed : (start select).answers (glyphsBelow 65536) = (found.take 65536).map .ok := by
    rw [← all, answers_take, h, List.map_take]
  have same := answers_of_ascending (ascending_glyphsBelow (Nat.le_refl _))
    (fun glyph _ => passed_start select glyph) prefixed
  have last : (65535 : UInt16) ∈ glyphsBelow 65536 :=
    List.mem_map.mpr ⟨65535, List.mem_range.mpr (by omega), rfl⟩
  have searched := List.mem_map_of_mem (f := select.fontDict?) last
  rw [FdSelect.fontDict?_last] at searched
  have foundLast : none ∈ (found.take 65536).map some := same ▸ searched
  obtain ⟨_, -, none⟩ := List.mem_map.mp foundLast
  cases none

/-! ### Ranges in order -/

/-- The current range starts at a glyph or before it, and ends at it or after it. -/
def Reaches (s : Selector) (glyph : Nat) : Prop :=
  ∃ range, s.select.ranges[s.current]? = some range ∧ range.first.toNat ≤ glyph ∧
    glyph ≤ (s.select.upperBound s.current).toNat

/-- With ranges in order, a glyph before the sentinel is found, and the range that holds it reaches the
next glyph. -/
theorem Reaches.selectFor {s : Selector} {glyph : UInt16} (h : s.Reaches glyph.toNat)
    (ordered : s.select.InOrder) (below : glyph < s.select.sentinel) :
    ∃ fontDict s', s.selectFor glyph = (.ok fontDict, s') ∧ s'.select = s.select ∧
      s'.Reaches (glyph.toNat + 1) := by
  obtain ⟨range, hrange, first, upper⟩ := h
  have first' := UInt16.le_iff_toNat_le.mpr first
  by_cases inside : glyph < s.select.upperBound s.current
  · refine ⟨range.fontDict, s, ?_, rfl, range, hrange, Nat.le_succ_of_le first, ?_⟩
    · rw [Selector.selectFor, FdSelect.lookup?_of_le_of_lt hrange first' inside]
    · exact UInt16.lt_iff_toNat_lt.mp inside
  · -- The glyph is the one at which the next range starts, and there is a next range.
    have passed := UInt16.not_lt.mp inside
    have notHere := FdSelect.lookup?_eq_none passed
    have bound : glyph.toNat = (s.select.upperBound s.current).toNat :=
      Nat.le_antisymm upper (UInt16.le_iff_toNat_le.mp passed)
    cases hnext : s.select.ranges[s.current + 1]? with
    | none =>
      have last : s.select.upperBound s.current = s.select.sentinel := by
        simp only [FdSelect.upperBound, hnext]
      rw [last] at passed
      exact absurd below (UInt16.not_lt.mpr passed)
    | some next =>
      have starts : next.first = glyph := by
        simp only [FdSelect.upperBound, hnext] at bound
        exact (UInt16.toNat_inj.mp bound).symm
      have ends := ordered.first_lt hnext
      have holds := FdSelect.lookup?_of_le_of_lt hnext (UInt16.le_of_eq starts) (starts ▸ ends)
      refine ⟨next.fontDict, { s with current := s.current + 1 }, ?_, rfl, next, hnext, ?_, ?_⟩
      · simp only [Selector.selectFor, notHere, holds]
      · rw [starts]
        exact Nat.le_succ _
      · rw [← starts]
        exact UInt16.lt_iff_toNat_lt.mp ends

theorem reaches_start {select : FdSelect} (ordered : select.InOrder) : (start select).Reaches 0 := by
  obtain ⟨range, hrange, first⟩ := Option.map_eq_some_iff.mp ordered.zero
  rw [List.head?_eq_getElem?, Array.getElem?_toList] at hrange
  exact ⟨range, hrange, by rw [first]; exact Nat.le_refl 0, Nat.zero_le _⟩

/-- **Glyphs before the sentinel are found**, one after the other, if the ranges are in order. -/
theorem Reaches.exists_answers {s : Selector} {glyph count : Nat} (h : s.Reaches glyph)
    (ordered : s.select.InOrder) (below : glyph + count ≤ s.select.sentinel.toNat) :
    ∃ found : List UInt8,
      s.answers ((List.range' glyph count).map UInt16.ofNat) = found.map .ok := by
  induction count generalizing s glyph with
  | zero => exact ⟨[], rfl⟩
  | succ count ih =>
    have size := s.select.sentinel.toNat_lt
    have number : (UInt16.ofNat glyph).toNat = glyph :=
      UInt16.toNat_ofNat_of_lt' (show glyph < 65536 by omega)
    have here : UInt16.ofNat glyph < s.select.sentinel := by
      rw [UInt16.lt_iff_toNat_lt, number]
      omega
    obtain ⟨fontDict, s', selected, same, reaches⟩ := Reaches.selectFor (number.symm ▸ h) ordered here
    rw [number] at reaches
    obtain ⟨found, others⟩ := ih reaches (same.symm ▸ ordered) (by rw [same]; omega)
    refine ⟨fontDict :: found, ?_⟩
    rw [List.range'_succ, List.map_cons, answers, selected, others, List.map_cons]

/-- **Glyphs that are looked up in order**, from glyph 0 on: if all are found, what is found for each is
the Font DICT of the first range that holds it, whatever the ranges are; and all glyphs before the
sentinel are found if the ranges are in order. -/
theorem answers_start (select : FdSelect) (n : Nat) :
    (∀ found : List UInt8, (start select).answers (glyphsBelow n) = found.map .ok →
      (glyphsBelow n).map select.fontDict? = found.map some) ∧
    (select.InOrder → n ≤ select.sentinel.toNat →
      ∃ found : List UInt8, (start select).answers (glyphsBelow n) = found.map .ok) := by
  refine ⟨fun found h => ?_, fun ordered below => ?_⟩
  · have ascending := ascending_glyphsBelow (Nat.le_of_lt (lt_of_answers_glyphsBelow h))
    exact answers_of_ascending ascending (fun glyph _ => passed_start select glyph) h
  · rw [glyphsBelow, List.range_eq_range']
    exact (reaches_start ordered).exists_answers ordered (by rw [Nat.zero_add]; exact below)

/-- Three ranges in order, of which the last one has two glyphs. -/
theorem answers_start_threeRanges :
    let select : FdSelect := ⟨#[⟨0, 3⟩, ⟨2, 1⟩, ⟨5, 0⟩], 7⟩
    select.InOrder ∧ 7 ≤ select.sentinel.toNat ∧
      (start select).answers (glyphsBelow 7) = [3, 3, 1, 1, 1, 0, 0].map .ok ∧
      (glyphsBelow 7).map select.fontDict? = [3, 3, 1, 1, 1, 0, 0].map some ∧
      ∃ found : List UInt8, (start select).answers (glyphsBelow 7) = found.map .ok := by
  intro select
  have ordered : select.InOrder := ⟨rfl, by decide⟩
  have below : 7 ≤ select.sentinel.toNat := by decide
  have searched : (glyphsBelow 7).map select.fontDict? = [3, 3, 1, 1, 1, 0, 0].map some := by
    decide +kernel
  obtain ⟨inEach, inOrder⟩ := answers_start select 7
  obtain ⟨found, answers⟩ := inOrder ordered below
  have same : found = [3, 3, 1, 1, 1, 0, 0] :=
    (List.map_inj_right fun _ _ => Option.some.inj).mp ((inEach found answers).symm.trans searched)
  exact ⟨ordered, below, same ▸ answers, searched, found, answers⟩

end Selector

end CompactFont
