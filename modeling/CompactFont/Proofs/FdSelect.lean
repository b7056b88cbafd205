import CompactFont.FdSelect
import CompactFont.Proofs.Outcome

/-!
# The Font DICTs that FDSelect assigns

The Font DICT of a glyph is that of the first range that holds the glyph (`FdSelect.Assigns`). A
selector that is asked for glyphs in ascending order finds just that one, or none: it has left only
ranges behind that end before the glyph (`Selector.Passed`, `Selector.selectFor_eq_ok`). This does
not take that the ranges are in order.
-/

namespace CompactFont

namespace FdSelect

/-- A range that holds a glyph starts before it, or at it, and ends after it. -/
theorem range_of_lookup? {select : FdSelect} {i : Nat} {glyph : UInt16} {fontDict : UInt8}
    (h : select.lookup? i glyph = some fontDict) :
    ∃ range, select.ranges[i]? = some range ∧ range.first ≤ glyph ∧
      glyph < select.upperBound i := by
  obtain ⟨range, hrange, h⟩ := Option.bind_eq_some_iff.mp h
  obtain ⟨_, hguard, -⟩ := Option.bind_eq_some_iff.mp h
  by_cases holds : range.first ≤ glyph ∧ glyph < select.upperBound i
  · exact ⟨range, hrange, holds⟩
  · rw [guard_of_not holds] at hguard
    cases hguard

/-- A range that ends before the glyph does not hold it. -/
theorem lookup?_eq_none {select : FdSelect} {i : Nat} {glyph : UInt16}
    (h : select.upperBound i ≤ glyph) : select.lookup? i glyph = none := by
  cases hl : select.lookup? i glyph with
  | none => rfl
  | some fontDict =>
    obtain ⟨range, -, -, hlt⟩ := range_of_lookup? hl
    exact absurd hlt (UInt16.not_lt.mpr h)

/-- The Font DICT of the glyph is the given one: that of the first range that holds the glyph. -/
def Assigns (select : FdSelect) (glyph : UInt16) (fontDict : UInt8) : Prop :=
  ∃ i, select.lookup? i glyph = some fontDict ∧ ∀ j, j < i → select.lookup? j glyph = none

end FdSelect

namespace Selector

/-- The ranges before the current one end before the glyph. -/
def Passed (s : Selector) (glyph : UInt16) : Prop :=
  ∀ i, i < s.current → s.select.upperBound i ≤ glyph

theorem passed_start (select : FdSelect) (glyph : UInt16) : (start select).Passed glyph :=
  fun _ hi => absurd hi (Nat.not_lt_zero _)

theorem Passed.mono {s : Selector} {glyph later : UInt16} (h : s.Passed glyph)
    (le : glyph ≤ later) : s.Passed later :=
  fun i hi => UInt16.le_trans (h i hi) le

/-- A selector that has left the glyph ahead finds the Font DICT that is assigned to it, and leaves
it ahead still. -/
theorem selectFor_eq_ok {s s' : Selector} {glyph : UInt16} {fontDict : UInt8}
    (h : s.selectFor glyph = (.ok fontDict, s')) (passed : s.Passed glyph) :
    s.select.Assigns glyph fontDict ∧ s'.select = s.select ∧ s'.Passed glyph := by
  have before (i : Nat) (hi : i < s.current) : s.select.lookup? i glyph = none :=
    FdSelect.lookup?_eq_none (passed i hi)
  simp only [selectFor] at h
  split at h
  · rename_i hfound
    cases h
    exact ⟨⟨s.current, hfound, before⟩, rfl, passed⟩
  · rename_i hnone
    split at h
    · rename_i hfound
      cases h
      obtain ⟨range, hrange, hfirst, -⟩ := FdSelect.range_of_lookup? hfound
      have bound : s.select.upperBound s.current ≤ glyph := by
        simp only [FdSelect.upperBound, hrange]
        exact hfirst
      refine ⟨⟨s.current + 1, hfound, fun j hj => ?_⟩, rfl, fun j hj => ?_⟩
      · rcases Nat.lt_succ_iff_lt_or_eq.mp hj with hj | rfl
        · exact before j hj
        · exact hnone
      · rcases Nat.lt_succ_iff_lt_or_eq.mp hj with hj | rfl
        · exact passed j hj
        · exact bound
    · cases h

end Selector

end CompactFont
