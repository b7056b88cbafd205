import CompactFont.Proofs.Charstring.Execution
import CompactFont.Proofs.Charstring.Expansion
import CompactFont.Proofs.FdSelect
import CompactFont.Proofs.Font.Accepted
import CompactFont.Proofs.Index

/-!
# What a glyph is decoded from

The glyphs of a font are decoded in order, and three things go on from one to the next: the data
that is left, the place in FDSelect and the compactor. None of them shows in the result. Each glyph
stands for what its charstring decodes to (`GlyphDecoded`, `decodeGlyphs_eq_ok`): the data that is
left starts with its charstring, the place in FDSelect is not yet past its range, and whatever the
compactor does can be undone.

**`read_glyphs`** says this of the fonts of a table, with the subroutines that belong to each glyph
(`Font.PrivateSubroutines`). The charstrings follow each other in the data whatever the offsets of
the INDEX start from; they are its objects if the offsets start from 1, and need not be if they do
not (`read_glyphs_shiftedTable`).
-/

namespace CompactFont

open Charstring (Instruction SubroutineSets Subroutines Compactor expand)

namespace FontSet

/-- The Font DICT of the glyph is the one that FDSelect assigns to it; it has none without
FDSelect. -/
def Selected (select : Option FdSelect) (glyph : UInt16) (fontDict : Option UInt8) : Prop :=
  match select with
  | none => fontDict = none
  | some select => ∃ number, fontDict = some number ∧ select.Assigns glyph number

/-- A charstring is decoded to the Font DICT and the instructions of glyph number `glyph`. -/
structure GlyphDecoded (sources : SubroutineSources) (options : ReadOptions)
    (select : Option FdSelect) (glyph : Nat) (charstring : List UInt8)
    (decoded : Option UInt8 × List Instruction) : Prop where
  /-- The Font DICT is that of the glyph. -/
  selected : Selected select (UInt16.ofNat glyph) decoded.1
  /-- The charstring stands for the instructions, with the subroutines of that Font DICT. -/
  decodes : ∃ sets, sources.sets decoded.1 = .ok sets ∧ Charstring.decode sets charstring =
    .ok (if options.compactInstructions then expand decoded.2 else decoded.2)

theorem selectFontDict_eq_ok {selector selector' : Option Selector} {glyph : UInt16}
    {fontDict : Option UInt8} (h : selectFontDict selector glyph = .ok (fontDict, selector'))
    (passed : ∀ s, selector = some s → s.Passed glyph) :
    Selected (selector.map (·.select)) glyph fontDict ∧
      selector'.map (·.select) = selector.map (·.select) ∧
      ∀ s, selector' = some s → s.Passed glyph := by
  cases selector with
  | none =>
    cases h
    exact ⟨rfl, rfl, fun s hs => by cases hs⟩
  | some s =>
    simp only [selectFontDict] at h
    split at h
    · rename_i number s' hs
      cases h
      obtain ⟨assigns, select, passed'⟩ := Selector.selectFor_eq_ok hs (passed s rfl)
      refine ⟨⟨number, rfl, assigns⟩, congrArg some select, fun r hr => ?_⟩
      cases hr
      exact passed'
    · cases h

/-- Compaction can be undone: what is stored for decoded instructions stands for just these. -/
theorem expand_fst_compact_of_decode {sets : SubroutineSets} {charstring : List UInt8}
    {list : List Instruction} (h : Charstring.decode sets charstring = .ok list) (c : Compactor) :
    expand (c.compact list).1 = list := by
  rw [c.expand_fst_compact,
    Charstring.expand_of_unpacked fun i hi => (Charstring.decoded_of_decode h i hi).unpacked]

/-- Every charstring is decoded to the glyph of its number. -/
theorem decodeGlyphs_eq_ok {sources : SubroutineSources} {options : ReadOptions} {glyph : Nat}
    {data : List UInt8} {selector : Option Selector} {compactor : Compactor}
    {extents : List Index.Extent} {list : List (Option UInt8 × List Instruction)}
    (h : decodeGlyphs sources options glyph data selector compactor extents = .ok list)
    (small : glyph + extents.length < 65536)
    (passed : ∀ s, selector = some s → s.Passed (UInt16.ofNat glyph)) :
    ∀ i charstring, (Index.consecutive data (extents.map (·.length)))[i]? = some charstring →
      ∃ decoded, list[i]? = some decoded ∧
        GlyphDecoded sources options (selector.map (·.select)) (glyph + i) charstring decoded := by
  induction extents generalizing glyph data selector compactor list with
  | nil => intro i charstring hi; cases hi
  | cons extent extents ih =>
    rw [List.length_cons] at small
    obtain ⟨⟨charstring, left⟩, htake, h⟩ := bind_eq_ok.mp h
    obtain ⟨rfl, -, rfl⟩ := Reader.take_eq_ok (lift_eq_ok.mp htake)
    obtain ⟨⟨fontDict, selector'⟩, hselect, h⟩ := bind_eq_ok.mp h
    obtain ⟨selected, same, passed'⟩ := selectFontDict_eq_ok hselect passed
    obtain ⟨sets, hsets, h⟩ := bind_eq_ok.mp h
    obtain ⟨decoded, hdecode, h⟩ := bind_eq_ok.mp h
    generalize hstored : (if options.compactInstructions = true then compactor.compact decoded
      else (decoded, compactor)) = stored at h
    have stands : decoded = if options.compactInstructions then expand stored.1 else stored.1 := by
      subst hstored
      split
      · exact (expand_fst_compact_of_decode hdecode compactor).symm
      · rfl
    obtain ⟨others, hothers, h⟩ := bind_eq_ok.mp h
    cases h
    have inOrder : UInt16.ofNat glyph ≤ UInt16.ofNat (glyph + 1) := by
      rw [UInt16.le_iff_toNat_le, UInt16.toNat_ofNat', UInt16.toNat_ofNat']
      omega
    have each := ih hothers (by omega) fun s hs => (passed' s hs).mono inOrder
    intro i charstring hi
    cases i with
    | zero =>
      cases hi
      exact ⟨_, rfl, selected, sets, hsets, by rw [hdecode, ← stands]⟩
    | succ i =>
      obtain ⟨next, hnext, decodes⟩ := each i charstring hi
      rw [same, Nat.add_right_comm] at decodes
      exact ⟨next, hnext, decodes⟩

end FontSet

/-! ### Glyphs of a font -/

theorem Charset.length_padded {α : Type} (n : Nat) (as : List α) : (padded n as).length = n := by
  induction n generalizing as with
  | zero => rfl
  | succ n ih =>
    cases as with
    | nil => rw [padded, List.length_cons, ih]
    | cons a as => rw [padded, List.length_cons, ih]

theorem Charset.length_glyphIds (charset : Charset) (n : Nat) :
    (charset.glyphIds n).length = n := by
  cases charset with
  | custom charset => exact length_padded n charset.ids
  | _ => simp [glyphIds]

/-- The subroutines that belong to a glyph, besides those of all fonts. -/
inductive Font.PrivateSubroutines (f : Font) (g : Glyph) : Option Index → Prop where
  /-- In a font that is not CID-keyed, those of its Private DICT. -/
  | ofFont (notKeyed : f.cid = none) (noDict : g.fontDict = none) :
      f.PrivateSubroutines g f.priv.subroutines
  /-- In a CID-keyed font without FDSelect, none. -/
  | none {cid : CidInfo} (keyed : f.cid = some cid) (noSelect : cid.fdSelect = none)
      (noDict : g.fontDict = none) : f.PrivateSubroutines g none
  /-- In a CID-keyed font with FDSelect, those of the Font DICT that it assigns to the glyph. -/
  | ofFontDict {cid : CidInfo} {select : FdSelect} {number : UInt8} {fontDict : FontDict}
      (keyed : f.cid = some cid) (hselect : cid.fdSelect = some select)
      (assigns : select.Assigns g.number number) (dict : g.fontDict = some number)
      (found : f.fontDicts[number.toNat]? = some fontDict) :
      f.PrivateSubroutines g fontDict.subroutines

namespace FontSet

/-- The subroutines that a glyph was decoded with are those that belong to it. -/
theorem exists_privateSubroutines {font : Font} {g : Glyph} {sets : SubroutineSets}
    (none : font.cid.isSome = true → font.priv.subroutines = none)
    (selected : Selected (font.cid.bind (·.fdSelect)) g.number g.fontDict)
    (hsets : SubroutineSources.sets ⟨font.globalSubroutines, font.priv.subroutines,
      font.fontDicts.map (·.subroutines)⟩ g.fontDict = .ok sets) :
    ∃ inPrivate, font.PrivateSubroutines g inPrivate ∧
      sets = ⟨⟨font.globalSubroutines⟩, inPrivate.map Subroutines.mk⟩ := by
  cases hcid : font.cid with
  | none =>
    rw [hcid] at selected
    have noDict : g.fontDict = Option.none := selected
    rw [noDict] at hsets
    cases hsets
    exact ⟨_, .ofFont hcid noDict, rfl⟩
  | some cid =>
    rw [hcid] at selected none
    cases hselect : cid.fdSelect with
    | none =>
      rw [Option.bind_some, hselect] at selected
      have noDict : g.fontDict = Option.none := selected
      rw [noDict, none rfl] at hsets
      cases hsets
      exact ⟨_, .none hcid hselect noDict, rfl⟩
    | some select =>
      rw [Option.bind_some, hselect] at selected
      obtain ⟨number, dict, assigns⟩ := selected
      rw [dict] at hsets
      simp only [SubroutineSources.sets, Array.getElem?_map] at hsets
      cases found : font.fontDicts[number.toNat]? with
      | none => rw [found] at hsets; cases hsets
      | some fontDict =>
        rw [found] at hsets
        cases hsets
        exact ⟨_, .ofFontDict hcid hselect assigns dict found, rfl⟩

theorem accepted_of_readCharstrings {table : List UInt8} {top : Dict} {charstrings : Index}
    (h : readCharstrings table top = .ok charstrings) : charstrings.Accepted := by
  obtain ⟨offset, -, h⟩ := bind_eq_ok.mp h
  obtain ⟨offset, -, h⟩ := bind_eq_ok.mp h
  obtain ⟨⟨_, rest⟩, hread, rfl⟩ := map_eq_ok.mp h
  exact Index.accepted_of_read hread

/-- The glyphs of a font are made from what its charstrings are decoded to. -/
theorem exists_decodeGlyphs {table : List UInt8} {name : String} {top : Dict}
    {strings : Array String} {inAll : Index} {options : ReadOptions} {font : Font}
    (h : readFont table name top strings inAll options = .ok font) :
    ∃ charstrings decoded,
      readCharstrings table font.topDict = .ok charstrings ∧
      decodeGlyphs ⟨font.globalSubroutines, font.priv.subroutines,
          font.fontDicts.map (·.subroutines)⟩ options 0 charstrings.data.toList
        ((font.cid.bind (·.fdSelect)).map Selector.start) .new charstrings.extents = .ok decoded ∧
      (font.cid.isSome = true → font.priv.subroutines = none) ∧
      font.glyphs = ((decoded.zip (font.charset.glyphIds charstrings.count)).mapIdx
        fun glyph (decoded, id) =>
          makeGlyph strings font.cid.isSome options glyph decoded id).toArray := by
  obtain ⟨metrics, cid, fontDicts, priv, charstrings, decoded, charset, encoding, -, -, -, hpriv,
    hcharstrings, hdecoded, -, -, rfl⟩ := readFont_eq_ok.mp h
  refine ⟨charstrings, decoded, hcharstrings, ?_, fun keyed => ?_, rfl⟩
  · rw [← List.map_toArray] at hdecoded
    exact hdecoded
  · cases cid with
    | none => cases keyed
    | some cid => cases hpriv; rfl

/-- **What a glyph is decoded from.** Every glyph of a font that was read stands for the
instructions that its charstring decodes to, with the subroutines of all fonts and those that belong
to the glyph. Its charstring starts in the object data where the one before it ends, which is where
the offsets tell if they start from 1. -/
theorem read_glyphs {table : List UInt8} {options : ReadOptions} {set : FontSet}
    (h : read table options = .ok set) {font : Font} (hfont : font ∈ set.fonts) :
    ∃ charstrings, readCharstrings table font.topDict = .ok charstrings ∧
      ∀ i, i < charstrings.count → ∃ g charstring inPrivate,
        font.glyph? (UInt16.ofNat i) = some g ∧ g.number = UInt16.ofNat i ∧
        charstrings.inSequence? i = some charstring ∧
        (charstrings.offsets[0]? = some 1 → charstrings.get? i = some charstring) ∧
        font.PrivateSubroutines g inPrivate ∧
        Charstring.decode ⟨⟨font.globalSubroutines⟩, inPrivate.map Subroutines.mk⟩ charstring =
          .ok g.expanded := by
  obtain ⟨name, top, strings, inAll, hread⟩ := exists_readFont h hfont
  obtain ⟨charstrings, decoded, hcharstrings, hdecoded, none, hglyphs⟩ := exists_decodeGlyphs hread
  have accepted := accepted_of_readCharstrings hcharstrings
  have hextents : charstrings.extents.length = charstrings.count := charstrings.length_extents
  have hcount := accepted.count_lt
  have each := decodeGlyphs_eq_ok hdecoded (by omega) fun s hs => by
    obtain ⟨select, -, rfl⟩ := Option.map_eq_some_iff.mp hs
    exact Selector.passed_start select _
  have starts : ((font.cid.bind (·.fdSelect)).map Selector.start).map (·.select) =
      font.cid.bind (·.fdSelect) := by
    cases font.cid.bind (·.fdSelect) <;> rfl
  rw [starts] at each
  refine ⟨charstrings, hcharstrings, fun i hi => ?_⟩
  obtain ⟨charstring, htaken, hsequence⟩ := Index.getElem?_consecutive_extents accepted hi
  obtain ⟨made, hmade, selected, sets, hsets, decodes⟩ := each i charstring htaken
  rw [Nat.zero_add] at selected
  obtain ⟨id, hid⟩ : ∃ id, (font.charset.glyphIds charstrings.count)[i]? = some id :=
    ⟨_, List.getElem?_eq_getElem (by rw [Charset.length_glyphIds]; exact hi)⟩
  have hg : font.glyphs[i]? = some (makeGlyph strings font.cid.isSome options i made id) := by
    have hzip : (decoded.zip (font.charset.glyphIds charstrings.count))[i]? = some (made, id) :=
      List.getElem?_zip_eq_some.mpr ⟨hmade, hid⟩
    rw [hglyphs, List.getElem?_toArray, List.getElem?_mapIdx, hzip]
    rfl
  obtain ⟨inPrivate, hprivate, rfl⟩ := exists_privateSubroutines
    (g := makeGlyph strings font.cid.isSome options i made id) none selected hsets
  refine ⟨_, charstring, inPrivate, ?_, rfl, hsequence, fun one => ?_, hprivate, decodes⟩
  · rw [Font.glyph?, UInt16.toNat_ofNat', Nat.mod_eq_of_lt (by omega), hg]
  · rw [← Index.inSequence?_eq_get? accepted one i, hsequence]

/-- A table whose only glyph calls the only subroutine of the Private DICT, which moves and ends the
glyph. -/
def callingTable : List UInt8 :=
  [1, 0, 4, 1, 0, 1, 1, 1, 2, 65, 0, 1, 1, 1, 6, 163, 17, 141, 170, 18, 0, 0, 0, 0,
    0, 1, 1, 1, 3, 32, 10, 141, 19, 0, 1, 1, 1, 4, 139, 22, 14]

theorem read_glyphs_callingTable :
    ∃ set font charstrings g inPrivate, read callingTable {} = .ok set ∧ font ∈ set.fonts ∧
      readCharstrings callingTable font.topDict = .ok charstrings ∧ 0 < charstrings.count ∧
      font.glyph? 0 = some g ∧ charstrings.get? 0 = some [32, 10] ∧
      font.PrivateSubroutines g inPrivate ∧
      Charstring.decode ⟨⟨font.globalSubroutines⟩, inPrivate.map Subroutines.mk⟩ [32, 10] =
        .ok g.expanded ∧
      g.expanded = [.int 0, .plain (.move .hmoveto), .plain .endchar] := by
  let top : Dict :=
    ⟨.top, [(.charStrings, [.integer 24]), (.privateDict, [.integer 2, .integer 31])]⟩
  have htop : Dict.ofBytes .top [163, 17, 141, 170, 18] = .ok top := by cbv
  have hprivate : Dict.ofBytes .priv [141, 19] = .ok ⟨.priv, [(.subrs, [.integer 2])]⟩ := by cbv
  obtain ⟨priv, hpriv, hsubroutines⟩ : ∃ priv, readFontPrivate callingTable none top = .ok priv ∧
      priv.subroutines = some ⟨#[1, 4], #[139, 22, 14]⟩ :=
    ⟨_, bind_eq_ok.mpr ⟨some (2, 31), rfl, bind_eq_ok.mpr ⟨_, hprivate,
      bind_eq_ok.mpr ⟨some ⟨#[1, 4], #[139, 22, 14]⟩, rfl, bind_eq_ok.mpr ⟨_, rfl, rfl⟩⟩⟩⟩, rfl⟩
  have hdecode : Charstring.decode ⟨⟨.empty⟩, some ⟨⟨#[1, 4], #[139, 22, 14]⟩⟩⟩ [32, 10] =
      .ok [.int 0, .plain (.move .hmoveto), .plain .endchar] :=
    Charstring.decode_of_executes (x := .token (.operand (.int (-107))) [32] (.call [10]
      (.token (.operand (.int 0)) [139] (.token (.move .hmoveto) [22] (.token .endchar [14] .stop)))
      .stop)) (.go rfl rfl rfl rfl (.callFinish rfl rfl rfl rfl rfl
        (.go rfl rfl rfl rfl (.go rfl rfl rfl rfl (.stop rfl rfl rfl rfl)))))
  have hdecoded : decodeGlyphs ⟨.empty, some ⟨#[1, 4], #[139, 22, 14]⟩, #[]⟩ {} 0 [32, 10] none .new
      [⟨0, 2⟩] = .ok [(none, [⟨.move .hmoveto, .int, 0⟩, .plain .endchar])] :=
    bind_eq_ok.mpr ⟨([32, 10], []), rfl, bind_eq_ok.mpr ⟨(none, none), rfl,
      bind_eq_ok.mpr ⟨_, rfl, bind_eq_ok.mpr ⟨_, hdecode, rfl⟩⟩⟩⟩
  rw [← hsubroutines] at hdecoded
  have hfont (name : String) (strings : Array String) : ∃ font g,
      readFont callingTable name top strings .empty {} = .ok font ∧ font.topDict = top ∧
        font.glyph? 0 = some g ∧
        g.expanded = [.int 0, .plain (.move .hmoveto), .plain .endchar] :=
    ⟨_, _, readFont_eq_ok.mpr ⟨_, none, [], priv, ⟨#[1, 3], #[32, 10]⟩, _, .isoAdobe,
      some .standard, rfl, rfl, rfl, hpriv, rfl, hdecoded, rfl, rfl, rfl⟩, rfl, rfl, rfl⟩
  obtain ⟨font, g, hread, hsame, hg, hexpanded⟩ := hfont _ _
  have hset := read_eq_ok.mpr ⟨⟨1, 0, 4, 1⟩, ⟨#[1, 2], #[65]⟩, ⟨#[1, 6], #[163, 17, 141, 170, 18]⟩,
    .empty, .empty, _, _, _, _, _, _, _, _, _, rfl, rfl, rfl, rfl, rfl, rfl, rfl, htop, rfl, rfl,
    hread, rfl⟩
  obtain ⟨charstrings, hcharstrings, each⟩ := read_glyphs hset (List.mem_singleton.mpr rfl)
  have hoffsets : charstrings = ⟨#[1, 3], #[32, 10]⟩ := by
    rw [hsame] at hcharstrings
    cases hcharstrings
    rfl
  subst hoffsets
  obtain ⟨g', charstring, inPrivate, hg', -, -, hget, hprivate, hdecode⟩ := each 0 (by decide)
  cases hget rfl
  cases hg.symm.trans hg'
  exact ⟨_, font, _, g, inPrivate, hset, List.mem_singleton.mpr rfl, hcharstrings, by decide, hg,
    rfl, hprivate, hdecode, hexpanded⟩

/-- A table whose charstrings have offsets from 2. The object data starts with the end of a glyph;
its first object starts after that, and is the end of a subroutine. -/
def shiftedTable : List UInt8 :=
  [1, 0, 4, 1, 0, 1, 1, 1, 2, 65, 0, 1, 1, 1, 3, 160, 17, 0, 0, 0, 0, 0, 1, 1, 2, 3, 14, 11]

/-- Where the offsets do not start from 1, a glyph is not decoded from its object. -/
theorem read_glyphs_shiftedTable :
    ∃ set font charstrings g object inPrivate, read shiftedTable {} = .ok set ∧ font ∈ set.fonts ∧
      readCharstrings shiftedTable font.topDict = .ok charstrings ∧ 0 < charstrings.count ∧
      font.glyph? 0 = some g ∧ charstrings.get? 0 = some object ∧
      font.PrivateSubroutines g inPrivate ∧
      Charstring.decode ⟨⟨font.globalSubroutines⟩, inPrivate.map Subroutines.mk⟩ object ≠
        .ok g.expanded := by
  have htop : Dict.ofBytes .top [160, 17] = .ok ⟨.top, [(.charStrings, [.integer 21])]⟩ := by cbv
  have hdecode : Charstring.decode ⟨⟨.empty⟩, none⟩ [14] = .ok [.plain .endchar] := by cbv
  have hdecoded : decodeGlyphs ⟨.empty, none, #[]⟩ {} 0 [14, 11] none .new [⟨1, 1⟩] =
      .ok [(none, [.plain .endchar])] :=
    bind_eq_ok.mpr ⟨([14], [11]), rfl, bind_eq_ok.mpr ⟨(none, none), rfl,
      bind_eq_ok.mpr ⟨_, rfl, bind_eq_ok.mpr ⟨_, hdecode, rfl⟩⟩⟩⟩
  have hobject : Charstring.decode ⟨⟨.empty⟩, none⟩ [11] = .ok [.plain .ret] := by cbv
  refine ⟨_, _, ⟨#[2, 3], #[14, 11]⟩, _, [11], none,
    read_eq_ok.mpr ⟨⟨1, 0, 4, 1⟩, ⟨#[1, 2], #[65]⟩, ⟨#[1, 3], #[160, 17]⟩, .empty, .empty, _, _, _,
      _, _, _, _, _, _, rfl, rfl, rfl, rfl, rfl, rfl, rfl, htop, rfl, rfl,
      readFont_eq_ok.mpr ⟨_, none, [], ⟨none, none, ⟨0, 0⟩⟩, ⟨#[2, 3], #[14, 11]⟩, _, .isoAdobe,
        some .standard, rfl, rfl, rfl, rfl, rfl, hdecoded, rfl, rfl, rfl⟩, rfl⟩,
    List.mem_singleton.mpr rfl, rfl, by decide, rfl, rfl, .ofFont rfl rfl, fun h => ?_⟩
  cases hobject.symm.trans h

end FontSet

end CompactFont
