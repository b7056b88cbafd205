import CompactFont.Proofs.Font.Glyphs
import CompactFont.Proofs.Charstring.LeadingWidth
import CompactFont.Proofs.Outline.Compacted

/-!
# Fonts with compacted glyphs

A font can be read with its glyphs compacted, or as they are decoded. `FontSet.expand` undoes the
compaction. What is read with compaction is then what is read without, or the same fault, since the
compactor shows neither in the instructions nor in how the reading goes on (`map_decodeGlyphs`,
`map_readFont`, `map_read`).

Whoever asks a font for an outline cannot tell the two apart either. The width of a glyph is looked up
in its first stored instruction, though. A width is never compacted as long as it stands in front, but
one that came late can take over the loads in front of it, and then stands in front itself
(`read_lateWidth`). It does so just where `Charstring.LoadsBeforeWidth` says so, and there alone the width
that is told is another one (`Glyph.widthDelta_expand`).
-/

namespace CompactFont

open Charstring (Instruction SubroutineSets Compactor expand)

/-- The glyph with its instructions as they were decoded. -/
def Glyph.expand (g : Glyph) : Glyph := { g with instructions := g.expanded, compacted := false }

/-- The font with all its glyphs as they were decoded. -/
def Font.expand (f : Font) : Font := { f with glyphs := f.glyphs.map Glyph.expand }

namespace FontSet

/-- The font set with all glyphs as they were decoded. -/
def expand (set : FontSet) : FontSet := { set with fonts := set.fonts.map Font.expand }

/-- The instructions of glyphs, expanded, are those that are read without compaction, whatever the
compactor was used for before. -/
theorem map_decodeGlyphs (sources : SubroutineSources) (glyph : Nat) (data : List UInt8)
    (selector : Option Selector) (compactor compactor' : Compactor) (extents : List Index.Extent) :
    List.map (Prod.map id Charstring.expand) <$>
        decodeGlyphs sources ⟨true⟩ glyph data selector compactor extents =
      decodeGlyphs sources ⟨false⟩ glyph data selector compactor' extents := by
  induction extents generalizing glyph data selector compactor with
  | nil => rfl
  | cons extent extents ih =>
    unfold decodeGlyphs
    refine map_bind_congr ?_
    rintro ⟨charstring, data⟩ -
    refine map_bind_congr ?_
    rintro ⟨fontDict, selector⟩ -
    refine map_bind_congr fun sets _ => ?_
    refine map_bind_congr fun decoded hdecode => ?_
    simp only [if_true, Bool.false_eq_true, if_false]
    rw [← ih _ _ _ (compactor.compact decoded).2, bind_map_left]
    refine map_bind_congr fun others _ => ?_
    have back := expand_fst_compact_of_decode hdecode compactor
    exact congrArg (fun stands => Except.ok ((fontDict, stands) :: others.map _)) back

theorem map_makeGlyphs (strings : Array String) (isCidKeyed : Bool)
    (decoded : List (Option UInt8 × List Instruction)) (ids : List (Option UInt16)) :
    ((decoded.zip ids).mapIdx fun glyph (decoded, id) =>
        makeGlyph strings isCidKeyed ⟨true⟩ glyph decoded id).map Glyph.expand =
      ((decoded.map (Prod.map id Charstring.expand)).zip ids).mapIdx fun glyph (decoded, id) =>
        makeGlyph strings isCidKeyed ⟨false⟩ glyph decoded id := by
  symm
  rw [List.mapIdx_eq_iff, List.zip_map_left]
  intro i
  rw [List.getElem?_map, List.getElem?_map, List.getElem?_mapIdx]
  cases (decoded.zip ids)[i]? <;> rfl

theorem map_readFont (table : List UInt8) (name : String) (top : Dict) (strings : Array String)
    (inAll : Index) : Font.expand <$> readFont table name top strings inAll ⟨true⟩ =
      readFont table name top strings inAll ⟨false⟩ := by
  unfold readFont
  refine map_bind_congr fun metrics _ => ?_
  refine map_bind_congr fun cid _ => ?_
  refine map_bind_congr fun fontDicts _ => ?_
  refine map_bind_congr fun priv _ => ?_
  refine map_bind_congr fun charstrings _ => ?_
  dsimp only
  rw [← map_decodeGlyphs _ _ _ _ .new, bind_map_left]
  refine map_bind_congr fun decoded _ => ?_
  refine map_bind_congr fun charset _ => ?_
  refine map_bind_congr fun encoding _ => ?_
  rw [← map_makeGlyphs, ← List.map_toArray]
  rfl

theorem map_readVersion1 (table : List UInt8) : FontSet.expand <$> readVersion1 table ⟨true⟩ =
      readVersion1 table ⟨false⟩ := by
  unfold readVersion1
  refine map_bind_congr ?_
  rintro ⟨header, rest⟩ -
  refine map_bind_congr ?_
  rintro ⟨names, rest⟩ -
  dsimp only
  split
  · rfl
  split
  · rfl
  refine map_bind_congr ?_
  rintro ⟨tops, rest⟩ -
  dsimp only
  split
  · rfl
  split
  · rfl
  split
  · refine map_bind_congr fun topBytes _ => ?_
    refine map_bind_congr fun top _ => ?_
    refine map_bind_congr ?_
    rintro ⟨strings, rest⟩ -
    refine map_bind_congr ?_
    rintro ⟨inAll, rest⟩ -
    rw [← map_readFont, bind_map_left]
    exact map_bind_congr fun font _ => rfl
  · rfl

/-- A table is read with compacted glyphs to the same font set as without, or to the same fault. -/
theorem map_read (table : List UInt8) :
    FontSet.expand <$> read table ⟨true⟩ = read table ⟨false⟩ := by
  unfold read
  refine map_bind_congr ?_
  rintro ⟨major, rest⟩ -
  dsimp only
  split
  · exact map_readVersion1 table
  split
  · exact map_bind_congr fun header _ => rfl
  · rfl

/-! ### What is told of a glyph -/

/-- Compacted glyphs hold the compacted instructions of their charstring. -/
theorem exists_compact_of_mem {sources : SubroutineSources} {glyph : Nat} {data : List UInt8}
    {selector : Option Selector} {compactor : Compactor} {extents : List Index.Extent}
    {list : List (Option UInt8 × List Instruction)}
    (h : decodeGlyphs sources ⟨true⟩ glyph data selector compactor extents = .ok list) :
    ∀ stored ∈ list, ∃ c sets charstring decoded,
      Charstring.decode sets charstring = .ok decoded ∧
        stored.2 = (Compactor.compact c decoded).1 := by
  induction extents generalizing glyph data selector compactor list with
  | nil => cases h; exact List.forall_mem_nil _
  | cons extent extents ih =>
    unfold decodeGlyphs at h
    obtain ⟨⟨charstring, data⟩, -, h⟩ := bind_eq_ok.mp h
    obtain ⟨⟨fontDict, selector⟩, -, h⟩ := bind_eq_ok.mp h
    obtain ⟨sets, -, h⟩ := bind_eq_ok.mp h
    obtain ⟨decoded, hdecode, h⟩ := bind_eq_ok.mp h
    obtain ⟨others, hothers, h⟩ := bind_eq_ok.mp h
    cases h
    exact List.forall_mem_cons.mpr
      ⟨⟨compactor, sets, charstring, decoded, hdecode, rfl⟩, ih hothers⟩

/-- A glyph holds what its decoded instructions are compacted to, and none of these packs operands. -/
theorem exists_compact_of_glyph? {table : List UInt8} {set : FontSet} {font : Font}
    {number : UInt16} {g : Glyph} (h : read table ⟨true⟩ = .ok set) (hfont : font ∈ set.fonts)
    (hg : font.glyph? number = some g) :
    ∃ c, g.instructions = (Compactor.compact c g.expanded).1 ∧ ∀ i ∈ g.expanded, i.Unpacked := by
  obtain ⟨name, top, strings, inAll, hread⟩ := exists_readFont h hfont
  obtain ⟨_, cid, _, _, _, decoded, charset, _, -, -, -, -, -, hdecoded, -, -, rfl⟩ :=
    readFont_eq_ok.mp hread
  simp only [Font.glyph?, List.getElem?_toArray, List.getElem?_mapIdx] at hg
  obtain ⟨⟨stored, id⟩, hstored, rfl⟩ := Option.map_eq_some_iff.mp hg
  have found := List.of_mem_zip (List.mem_of_getElem? hstored)
  obtain ⟨c, sets, charstring, list, hdecode, hlist⟩ :=
    exists_compact_of_mem hdecoded stored found.1
  have back : Charstring.expand stored.2 = list := by
    rw [hlist]
    exact expand_fst_compact_of_decode hdecode c
  have unpacked : ∀ i ∈ list, i.Unpacked := fun i hi =>
    (Charstring.decoded_of_decode hdecode i hi).unpacked
  rw [← back] at hlist unpacked
  exact ⟨c, hlist, unpacked⟩

end FontSet

@[simp] theorem Glyph.expanded_expand (g : Glyph) : g.expand.expanded = g.expanded := rfl

theorem Glyph.widthDelta_eq (g : Glyph) : g.widthDelta = Charstring.leadingWidth? g.instructions := by
  unfold widthDelta Charstring.leadingWidth?
  cases g.instructions <;> rfl

/-- The width is the same for a glyph as it was decoded, unless it came late and took over the loads
in front of it. -/
theorem Glyph.widthDelta_expand {g : Glyph} {c : Compactor}
    (stored : g.instructions = (c.compact g.expanded).1) (unpacked : ∀ i ∈ g.expanded, i.Unpacked) :
    g.expand.widthDelta = g.widthDelta ↔ ¬Charstring.LoadsBeforeWidth g.expanded := by
  have decoded : g.expand.instructions = g.expanded := rfl
  rw [widthDelta_eq, widthDelta_eq, decoded, stored, eq_comm]
  exact c.leadingWidth?_fst_compact unpacked

theorem Font.glyph?_expand (f : Font) (number : UInt16) :
    f.expand.glyph? number = (f.glyph? number).map Glyph.expand := by
  rw [Font.glyph?, Font.expand, Array.getElem?_map, Font.glyph?]

theorem Font.advance?_expand {f : Font} {number : UInt16}
    (same : ∀ g, f.glyph? number = some g → g.expand.widthDelta = g.widthDelta) :
    f.expand.advance? number = f.advance? number := by
  rw [advance?, advance?, f.glyph?_expand]
  cases hg : f.glyph? number with
  | none => rfl
  | some g =>
    have widths : f.expand.widthsOf? g.expand = f.widthsOf? g := rfl
    simp only [Option.map_some, Option.bind_eq_bind, Option.bind_some, widths, same g hg]

namespace FontSet

/-- **Compaction shows in nothing but how glyphs are stored**: a table that is read with compacted
glyphs holds the same, or has the same fault. Each glyph has the same instructions when they are
expanded, and its outline is evaluated to the same calls and the same fault. So are the width of each
glyph and how far it advances the same, unless the width came late and took over the loads in front of
it; where it did, the width is not the same. -/
theorem read_compacted (table : List UInt8) :
    FontSet.expand <$> read table ⟨true⟩ = read table ⟨false⟩ ∧
      ∀ set, read table ⟨true⟩ = .ok set → ∀ font ∈ set.fonts, ∀ number,
        font.expand.glyph? number = (font.glyph? number).map Glyph.expand ∧
        (∀ g, font.glyph? number = some g → g.expand.expanded = g.expanded ∧
          (g.expand.widthDelta = g.widthDelta ↔ ¬Charstring.LoadsBeforeWidth g.expanded)) ∧
        (font.expand.advance? number = font.advance? number ∨
          ∃ g, font.glyph? number = some g ∧ Charstring.LoadsBeforeWidth g.expanded) ∧
        ∀ (e : Evaluator) scale,
          (font.expand.outline number e scale).1 = (font.outline number e scale).1 := by
  refine ⟨map_read table, fun set hset font hfont number => ?_⟩
  have widths (g : Glyph) (hg : font.glyph? number = some g) :
      g.expand.widthDelta = g.widthDelta ↔ ¬Charstring.LoadsBeforeWidth g.expanded := by
    obtain ⟨c, stored, unpacked⟩ := exists_compact_of_glyph? hset hfont hg
    exact Glyph.widthDelta_expand stored unpacked
  refine ⟨font.glyph?_expand number, fun g hg => ⟨g.expanded_expand, widths g hg⟩, ?advance,
    fun e scale => ?outline⟩
  case advance =>
    by_cases late : ∃ g, font.glyph? number = some g ∧ Charstring.LoadsBeforeWidth g.expanded
    · exact .inr late
    · exact .inl (Font.advance?_expand fun g hg => (widths g hg).mpr fun loads => late ⟨g, hg, loads⟩)
  case outline =>
    simp only [Font.outline, font.glyph?_expand]
    cases hg : font.glyph? number with
    | none => rfl
    | some g =>
      obtain ⟨c, stored, -⟩ := exists_compact_of_glyph? hset hfont hg
      have same := e.evaluate_congr (c.outcome_fst_compact g.expanded) scale
      rw [← stored] at same
      exact same.symm

/-- A table of two glyphs. The first has a width and moves. The second has an operand, an unknown
operator, and a width that comes late and is zero. -/
def widthsTable : List UInt8 :=
  [1, 0, 4, 1, 0, 1, 1, 1, 2, 65, 0, 1, 1, 1, 3, 160, 17, 0, 0, 0, 0, 0, 2, 1, 1, 6, 11,
    149, 159, 169, 21, 14, 144, 12, 60, 139, 14]

/-- The instructions of its first glyph, as they are stored. -/
def movedGlyph (compacted : Bool) : List Instruction :=
  if compacted then [.withValue .width 10, ⟨.move .rmoveto, .shorts, 1310750⟩, .plain .endchar]
  else [.withValue .width 10, .int 20, .int 30, .plain (.move .rmoveto), .plain .endchar]

/-- The instructions of its second glyph, as they are stored. -/
def lateGlyph (compacted : Bool) : List Instruction :=
  if compacted then [⟨.width, .int, 5⟩, .plain .endchar]
  else [.int 5, .plain .width, .plain .endchar]

theorem decodeGlyphs_widthsTable (compacted : Bool) :
    decodeGlyphs ⟨.empty, none, #[]⟩ ⟨compacted⟩ 0 [149, 159, 169, 21, 14, 144, 12, 60, 139, 14]
      none .new [⟨0, 5⟩, ⟨5, 5⟩] =
      .ok [(none, movedGlyph compacted), (none, lateGlyph compacted)] := by
  have hmoved : Charstring.decode ⟨⟨.empty⟩, none⟩ [149, 159, 169, 21, 14] =
      .ok (movedGlyph false) := by cbv
  have hlate : Charstring.decode ⟨⟨.empty⟩, none⟩ [144, 12, 60, 139, 14] =
      .ok (lateGlyph false) := by cbv
  have step (c : Compactor) : decodeGlyphs ⟨.empty, none, #[]⟩ ⟨compacted⟩ 1 [144, 12, 60, 139, 14]
      none c [⟨5, 5⟩] = .ok [(none, lateGlyph compacted)] := by
    refine bind_eq_ok.mpr ⟨([144, 12, 60, 139, 14], []), rfl, ?_⟩
    refine bind_eq_ok.mpr ⟨(none, none), rfl, bind_eq_ok.mpr ⟨_, rfl, ?_⟩⟩
    refine bind_eq_ok.mpr ⟨_, hlate, ?_⟩
    cases compacted <;> rfl
  refine bind_eq_ok.mpr ⟨([149, 159, 169, 21, 14], [144, 12, 60, 139, 14]), rfl, ?_⟩
  refine bind_eq_ok.mpr ⟨(none, none), rfl, bind_eq_ok.mpr ⟨_, rfl, ?_⟩⟩
  refine bind_eq_ok.mpr ⟨_, hmoved, bind_eq_ok.mpr ⟨_, step _, ?_⟩⟩
  cases compacted <;> rfl

theorem exists_read_widthsTable (compacted : Bool) :
    ∃ set font g g', read widthsTable ⟨compacted⟩ = .ok set ∧ font ∈ set.fonts ∧
      font.glyph? 0 = some g ∧ g.instructions = movedGlyph compacted ∧ g.compacted = compacted ∧
      font.glyph? 1 = some g' ∧ g'.instructions = lateGlyph compacted := by
  have htop : Dict.ofBytes .top [160, 17] = .ok ⟨.top, [(.charStrings, [.integer 21])]⟩ := by cbv
  exact ⟨_, _, _, _,
    read_eq_ok.mpr ⟨⟨1, 0, 4, 1⟩, ⟨#[1, 2], #[65]⟩, ⟨#[1, 3], #[160, 17]⟩, .empty, .empty, _, _, _,
      _, _, _, _, _, _, rfl, rfl, rfl, rfl, rfl, rfl, rfl, htop, rfl, rfl,
      readFont_eq_ok.mpr ⟨_, none, [], ⟨none, none, ⟨0, 0⟩⟩,
        ⟨#[1, 6, 11], #[149, 159, 169, 21, 14, 144, 12, 60, 139, 14]⟩, _, .isoAdobe, some .standard,
        rfl, rfl, rfl, rfl, rfl, decodeGlyphs_widthsTable compacted, rfl, rfl, rfl⟩, rfl⟩,
    List.mem_singleton.mpr rfl, rfl, rfl, rfl, rfl, rfl⟩

/-- Where the width stands in front, it is the same, also if the move takes over its operands. -/
theorem read_compacted_widthsTable :
    ∃ set font g, read widthsTable ⟨true⟩ = .ok set ∧ font ∈ set.fonts ∧ font.glyph? 0 = some g ∧
      g.instructions = [.withValue .width 10, ⟨.move .rmoveto, .shorts, 1310750⟩, .plain .endchar] ∧
      FontSet.expand <$> read widthsTable ⟨true⟩ = read widthsTable ⟨false⟩ ∧
      (∀ (e : Evaluator) scale, (font.expand.outline 0 e scale).1 = (font.outline 0 e scale).1) ∧
      g.expand.widthDelta = g.widthDelta ∧ font.expand.advance? 0 = font.advance? 0 := by
  obtain ⟨set, font, g, -, hset, hfont, hg, instructions, compacted, -⟩ :=
    exists_read_widthsTable true
  obtain ⟨same, each⟩ := read_compacted widthsTable
  obtain ⟨-, widths, advance, outline⟩ := each set hset font hfont 0
  have front : ¬Charstring.LoadsBeforeWidth g.expanded := by
    rintro ⟨ns, rest, late, -⟩
    rw [Glyph.expanded, if_pos compacted, instructions] at late
    cases ns with
    | nil => cases (List.cons.inj late).1
    | cons n ns => cases (List.cons.inj late).1
  refine ⟨set, font, g, hset, hfont, hg, instructions, same, outline,
    (widths g hg).2.mpr front, advance.resolve_right ?_⟩
  rintro ⟨g', hg', late⟩
  cases hg.symm.trans hg'
  exact front late

/-- A width that came late takes over the load in front of it, and is the first of the instructions
that are stored: the glyph tells a width that it does not tell if it is read without compaction. -/
theorem read_lateWidth :
    ¬∀ table set set', read table ⟨true⟩ = .ok set → read table ⟨false⟩ = .ok set' →
      ∀ font ∈ set.fonts, ∀ font' ∈ set'.fonts, ∀ number g g', font.glyph? number = some g →
        font'.glyph? number = some g' → g.widthDelta = g'.widthDelta := by
  intro h
  obtain ⟨set, font, -, g, hset, hfont, -, -, -, hg, instructions⟩ := exists_read_widthsTable true
  obtain ⟨set', font', -, g', hset', hfont', -, -, -, hg', instructions'⟩ :=
    exists_read_widthsTable false
  have same := h _ set set' hset hset' font hfont font' hfont' 1 g g' hg hg'
  rw [Glyph.widthDelta, Glyph.widthDelta, instructions, instructions'] at same
  cases same

end FontSet

end CompactFont
