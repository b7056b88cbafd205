import CompactFont.Proofs.Charset
import CompactFont.Proofs.Outline.Faults
import CompactFont.Proofs.Text.Utf8

/-!
# The structure of a font that was read

The glyphs of a font are put together from lists that are made apart: what the charstrings are decoded
to, and the SIDs of the charset. Its Font DICTs are those objects of an INDEX that can be looked up. If
one of these were short, glyphs or Font DICTs would be missing and nothing would tell. None is: there
are as many glyphs as charstrings and as many Font DICTs as FDArray has objects, each glyph has its
number, its name and its SID, and its Font DICT is one of the font's (`Font.Assembled`,
**`read_assembled`**).

Names are told by the table, not by the lists that were made from it: a name is a standard string or
an object of the String INDEX (`Index.Names`), if the SID is in range. An object that is the UTF-8 of a
text names that text; any other one names what it is decoded to.
-/

namespace CompactFont

open Charstring (Instruction Compactor)

/-! ### Names -/

/-- The SID that comes at place `i` when a charset is gone through in order. -/
def Charset.sidInOrder? (charset : Charset) (i : Nat) : Option UInt16 :=
  match charset with
  | .custom charset => charset.ids[i]?
  | predefined => predefined.id? (UInt16.ofNat i)

theorem Charset.getElem?_glyphIds_of_lt {charset : Charset} {n i : Nat} (h : i < n) :
    (charset.glyphIds n)[i]? = some (charset.sidInOrder? i) := by
  cases charset with
  | custom charset => exact getElem?_padded charset.ids h
  | _ => simp only [glyphIds, sidInOrder?, List.getElem?_map, List.getElem?_range h, Option.map_some]

theorem size_standardStrings : standardStrings.size = 391 := by decide +kernel

theorem standardStrings_zero : standardStrings[0]? = some ".notdef" := by decide +kernel

/-- What an SID names, in a font with the given String INDEX. -/
inductive Index.Names (strings : Index) (sid : UInt16) : Option String → Prop where
  /-- A standard string. -/
  | standard {name : String} (h : standardStrings[sid.toNat]? = some name) :
      strings.Names sid (some name)
  /-- An object of the String INDEX: the SIDs from 391 on are its numbers. The name is the text that was
  written, if the object is UTF-8. -/
  | own {object : List UInt8} {name : String} (beyond : 391 ≤ sid.toNat)
      (h : strings.get? (sid.toNat - 391) = some object) (decoded : name = Utf8.decode object)
      (written : ∀ text, object = Utf8.encode text → name = text) : strings.Names sid (some name)
  /-- Nothing, if it is out of range. -/
  | outOfRange (h : 391 + strings.count ≤ sid.toNat) : strings.Names sid none

theorem Index.Accepted.names_stringOfSid? {strings : Index} (h : strings.Accepted) (sid : UInt16) :
    strings.Names sid (stringOfSid? (strings.objects.map Utf8.decode).toArray sid) := by
  unfold stringOfSid?
  cases hstandard : standardStrings[sid.toNat]? with
  | some name => exact .standard hstandard
  | none =>
    have beyond : 391 ≤ sid.toNat :=
      size_standardStrings ▸ Array.getElem?_eq_none_iff.mp hstandard
    have object := Index.getElem?_objects (fun i hi => h.exists_get? hi) (sid.toNat - 391)
    change strings.Names sid (strings.objects.map Utf8.decode).toArray[sid.toNat - _]?
    rw [size_standardStrings, List.getElem?_toArray, List.getElem?_map, object]
    cases hobject : strings.get? (sid.toNat - 391) with
    | some object =>
      refine .own beyond hobject rfl fun text written => ?_
      rw [written, Utf8.decode_encode]
    | none =>
      refine .outOfRange (Nat.le_of_not_lt fun inside => ?_)
      obtain ⟨object, found⟩ := h.exists_get? (i := sid.toNat - 391) (by omega)
      rw [hobject] at found
      cases found

/-- What glyph number `i` is called, where the charset has the given SID for it. -/
inductive Index.NamesGlyph (strings : Index) (keyed : Bool) :
    (i : Nat) → (sid : Option UInt16) → Option String → Prop where
  /-- Glyph 0 is called the same in all fonts. -/
  | notdef (sid : Option UInt16) : strings.NamesGlyph keyed 0 sid (some ".notdef")
  /-- No other glyph of a CID-keyed font has a name. -/
  | keyed {i : Nat} {sid : Option UInt16} (other : i ≠ 0) (h : keyed = true) :
      strings.NamesGlyph keyed i sid none
  /-- A glyph of any other font is called what its SID names. -/
  | named {i : Nat} {sid : UInt16} {name : Option String} (other : i ≠ 0) (h : keyed = false)
      (names : strings.Names sid name) : strings.NamesGlyph keyed i (some sid) name
  /-- It has no name without an SID. -/
  | noSid {i : Nat} (other : i ≠ 0) (h : keyed = false) : strings.NamesGlyph keyed i none none

theorem Index.Accepted.namesGlyph {strings : Index} (h : strings.Accepted) (keyed : Bool) (i : Nat)
    (sid : Option UInt16) : strings.NamesGlyph keyed i sid
      (FontSet.glyphName (strings.objects.map Utf8.decode).toArray keyed i sid) := by
  unfold FontSet.glyphName
  split
  · rename_i zero
    subst zero
    rw [standardStrings_zero]
    exact .notdef sid
  · rename_i other
    cases keyed with
    | true => exact .keyed other rfl
    | false =>
      cases sid with
      | none => exact .noSid other rfl
      | some sid =>
        rw [if_neg Bool.false_ne_true, Option.bind_some]
        exact .named other rfl (h.names_stringOfSid? sid)

/-! ### Font DICTs -/

namespace FontSet

/-- What makes a font CID-keyed is told by its Top DICT. -/
inductive KeyedBy (top : Dict) : Option CidInfo → Prop where
  /-- Nothing, if there is no registry, ordering and supplement. -/
  | none (h : top.get? .ros = none) : KeyedBy top none
  /-- FDArray and FDSelect are where the Top DICT tells. An offset that is zero or not there tells
  that there is none. -/
  | some {cid : CidInfo} (h : top.get? .ros ≠ none)
      (fdArray : offsetOrZero top .fdArray = .ok cid.fdArrayOffset)
      (fdSelect : offsetOrZero top .fdSelect = .ok cid.fdSelectOffset)
      (present : cid.fdSelect.isSome ↔ cid.fdSelectOffset ≠ 0) : KeyedBy top (some cid)

theorem keyedBy_of_readCid {table : List UInt8} {top : Dict} {strings : Array String}
    {cid : Option CidInfo} (h : readCid table top strings = .ok cid) : KeyedBy top cid := by
  unfold readCid at h
  split at h
  · rename_i notKeyed
    cases h
    exact .none notKeyed
  · rename_i keyed
    obtain ⟨_, -, h⟩ := bind_eq_ok.mp h
    obtain ⟨_, -, h⟩ := bind_eq_ok.mp h
    obtain ⟨_, -, h⟩ := bind_eq_ok.mp h
    obtain ⟨_, -, h⟩ := bind_eq_ok.mp h
    obtain ⟨_, -, h⟩ := bind_eq_ok.mp h
    obtain ⟨_, -, h⟩ := bind_eq_ok.mp h
    obtain ⟨fdArray, hfdArray, h⟩ := bind_eq_ok.mp h
    obtain ⟨offset, hoffset, h⟩ := bind_eq_ok.mp h
    have ros : top.get? .ros ≠ none := by
      rw [keyed]
      nofun
    dsimp only at h
    split at h
    · rename_i absent
      cases h
      exact .some ros (lift_eq_ok.mp hfdArray) (lift_eq_ok.mp hoffset) (by simp [absent])
    · rename_i present
      obtain ⟨fdSelect, hfdSelect, h⟩ := bind_eq_ok.mp h
      obtain ⟨select, -, rfl⟩ := map_eq_ok.mp hfdSelect
      cases h
      exact .some ros (lift_eq_ok.mp hfdArray) (lift_eq_ok.mp hoffset) (by simp [present])
  · cases h

/-- The number of objects that FDArray has, in a font whose FDArray is where `cid` tells. -/
inductive FontDictCount (table : List UInt8) : Option CidInfo → Nat → Prop where
  /-- There is no FDArray in a font that is not CID-keyed. -/
  | notKeyed : FontDictCount table none 0
  /-- There need not be one in a CID-keyed font. -/
  | absent {cid : CidInfo} (h : cid.fdArrayOffset = 0) : FontDictCount table (some cid) 0
  /-- FDArray is an INDEX. -/
  | present {cid : CidInfo} {dicts : Index} (h : cid.fdArrayOffset ≠ 0)
      (fdArray : readAt table cid.fdArrayOffset Index.read = .ok dicts) :
      FontDictCount table (some cid) dicts.count

theorem fontDictCount_of_readFontDicts {table : List UInt8} {cid : Option CidInfo}
    {strings : Array String} {fontDicts : List FontDict}
    (h : readFontDicts table cid strings = .ok fontDicts) :
    FontDictCount table cid fontDicts.length := by
  unfold readFontDicts at h
  split at h
  · cases h
    exact .notKeyed
  · rename_i cid
    split at h
    · rename_i absent
      cases h
      exact .absent absent
    · rename_i present
      obtain ⟨dicts, hdicts, h⟩ := bind_eq_ok.mp h
      obtain ⟨⟨_, rest⟩, hread, rfl⟩ := map_eq_ok.mp hdicts
      have accepted := Index.accepted_of_read hread
      rw [length_of_mapM_eq_ok h, Index.length_objects fun i hi => accepted.exists_get? hi]
      exact .present present hdicts

/-! ### Glyphs -/

/-- No charstring is left out when glyphs are decoded. -/
theorem length_of_decodeGlyphs {sources : SubroutineSources} {options : ReadOptions} {glyph : Nat}
    {data : List UInt8} {selector : Option Selector} {compactor : Compactor}
    {extents : List Index.Extent} {list : List (Option UInt8 × List Instruction)}
    (h : decodeGlyphs sources options glyph data selector compactor extents = .ok list) :
    list.length = extents.length := by
  induction extents generalizing glyph data selector compactor list with
  | nil =>
    cases h
    rfl
  | cons extent extents ih =>
    obtain ⟨⟨charstring, left⟩, -, h⟩ := bind_eq_ok.mp h
    obtain ⟨⟨fontDict, selector'⟩, -, h⟩ := bind_eq_ok.mp h
    obtain ⟨sets, -, h⟩ := bind_eq_ok.mp h
    obtain ⟨decoded, -, h⟩ := bind_eq_ok.mp h
    obtain ⟨others, hothers, h⟩ := bind_eq_ok.mp h
    cases h
    rw [List.length_cons, List.length_cons, ih hothers]

theorem Selected.isSome_iff {select : Option FdSelect} {glyph : UInt16} {fontDict : Option UInt8}
    (h : Selected select glyph fontDict) : fontDict.isSome ↔ select.isSome := by
  cases select with
  | none =>
    cases h
    exact Iff.rfl
  | some select =>
    obtain ⟨number, rfl, -⟩ := h
    exact Iff.rfl

/-- A glyph is only decoded if its Font DICT is there. -/
theorem GlyphDecoded.fontDict_lt {sources : SubroutineSources} {options : ReadOptions}
    {select : Option FdSelect} {glyph : Nat} {charstring : List UInt8}
    {decoded : Option UInt8 × List Instruction}
    (h : GlyphDecoded sources options select glyph charstring decoded) {number : UInt8}
    (hnumber : decoded.1 = some number) : number.toNat < sources.inFontDicts.size := by
  obtain ⟨sets, hsets, -⟩ := h.decodes
  rw [hnumber] at hsets
  refine Nat.lt_of_not_le fun beyond => ?_
  simp only [SubroutineSources.sets, Array.getElem?_eq_none beyond] at hsets
  cases hsets

/-- The String INDEX of a table is the third INDEX after the header. -/
def StringIndex (table : List UInt8) (strings : Index) : Prop :=
  ∃ header names tops rest₁ rest₂ rest₃ rest₄, Header.read table = .ok (header, rest₁) ∧
    Index.read rest₁ = .ok (names, rest₂) ∧ Index.read rest₂ = .ok (tops, rest₃) ∧
    Index.read rest₃ = .ok (strings, rest₄)

end FontSet

/-- Glyph number `i` of a font. -/
structure Font.GlyphAt (font : Font) (strings : Index) (i : Nat) (g : Glyph) : Prop where
  /-- It has its number. -/
  number : g.number.toNat = i
  /-- It is called what its SID names, where the font is not CID-keyed. -/
  name : strings.NamesGlyph font.isCidKeyed i (font.charset.sidInOrder? i) g.name
  /-- It has the SID that comes at its place in the charset. -/
  sid : g.sid = (font.charset.sidInOrder? i).getD 0
  /-- It has a Font DICT if there is FDSelect. -/
  selected : g.fontDict.isSome ↔ (font.cid.bind (·.fdSelect)).isSome
  /-- Its Font DICT is one of those of the font. -/
  fontDict_lt : ∀ number, g.fontDict = some number → number.toNat < font.fontDicts.size

/-- The font is put together from all that the table has of it. -/
structure Font.Assembled (font : Font) (table : List UInt8) (strings : Index) : Prop where
  /-- It is CID-keyed, and has FDSelect, if its Top DICT tells so. -/
  keyed : FontSet.KeyedBy font.topDict font.cid
  /-- There are as many Font DICTs as FDArray has objects. -/
  fontDicts : FontSet.FontDictCount table font.cid font.fontDicts.size
  /-- There are as many glyphs as charstrings. -/
  glyphs : ∃ charstrings, FontSet.readCharstrings table font.topDict = .ok charstrings ∧
    font.glyphs.size = charstrings.count
  /-- Each glyph is what its number tells. -/
  glyphAt : ∀ i g, font.glyphs[i]? = some g → font.GlyphAt strings i g

namespace Font.Assembled

variable {font : Font} {table : List UInt8} {strings : Index}

/-- The glyphs that there are have a width. -/
theorem isSome_advance?_iff (h : font.Assembled table strings) (number : UInt16) :
    (font.advance? number).isSome ↔ number.toNat < font.glyphs.size := by
  cases hg : font.glyph? number with
  | none =>
    have missing : font.glyphs.size ≤ number.toNat := Array.getElem?_eq_none_iff.mp hg
    simp [advance?, hg, missing]
  | some g =>
    have inside : number.toNat < font.glyphs.size := (Array.getElem?_eq_some_iff.mp hg).1
    have widths : ∃ widths, font.widthsOf? g = some widths := by
      unfold widthsOf?
      cases hfontDict : g.fontDict with
      | none => exact ⟨_, rfl⟩
      | some fontDict =>
        have lt := (h.glyphAt _ _ hg).fontDict_lt fontDict hfontDict
        exact ⟨_, congrArg (Option.map (·.widths)) (Array.getElem?_eq_getElem lt)⟩
    obtain ⟨widths, hwidths⟩ := widths
    simp [advance?, hg, hwidths, inside]

end Font.Assembled

/-- The outline of a glyph is refused for its number just when there is no such glyph. -/
theorem Font.fault_outline_iff (font : Font) (number : UInt16) (e : Evaluator) (scale : Float32) :
    (font.outline number e scale).1.fault = some (.read .badIndex) ↔
      font.glyphs.size ≤ number.toNat := by
  unfold outline
  cases hg : font.glyph? number with
  | none => exact ⟨fun _ => Array.getElem?_eq_none_iff.mp hg, fun _ => rfl⟩
  | some g =>
    have inside : number.toNat < font.glyphs.size := (Array.getElem?_eq_some_iff.mp hg).1
    refine ⟨fun fault => ?_, fun missing => absurd inside (Nat.not_lt.mpr missing)⟩
    obtain ⟨i, -, blame⟩ := Evaluator.blame_evaluate fault
    cases blame

namespace FontSet

theorem assembled_of_readFont {table : List UInt8} {name : String} {top : Dict} {strings : Index}
    {inAll : Index} {options : ReadOptions} {font : Font} (accepted : strings.Accepted)
    (h : readFont table name top (strings.objects.map Utf8.decode).toArray inAll options =
      .ok font) : font.Assembled table strings := by
  obtain ⟨metrics, cid, fontDicts, priv, charstrings, decoded, charset, encoding, -, hcid, hfontDicts,
    -, hcharstrings, hdecoded, -, -, rfl⟩ := readFont_eq_ok.mp h
  have held := accepted_of_readCharstrings hcharstrings
  have hextents : charstrings.extents.length = charstrings.count := charstrings.length_extents
  have length : decoded.length = charstrings.count := by
    rw [length_of_decodeGlyphs hdecoded, hextents]
  have hcount := held.count_lt
  have each := decodeGlyphs_eq_ok hdecoded (by omega) fun s hs => by
    obtain ⟨select, -, rfl⟩ := Option.map_eq_some_iff.mp hs
    exact Selector.passed_start select _
  have starts : ((cid.bind (·.fdSelect)).map Selector.start).map (·.select) =
      cid.bind (·.fdSelect) := by
    cases cid.bind (·.fdSelect) <;> rfl
  rw [starts] at each
  refine ⟨keyedBy_of_readCid hcid, fontDictCount_of_readFontDicts hfontDicts,
    ⟨charstrings, hcharstrings, by simp [length, Charset.length_glyphIds]⟩, fun i g hg => ?_⟩
  rw [List.getElem?_toArray, List.getElem?_mapIdx] at hg
  obtain ⟨⟨made, id⟩, hzip, rfl⟩ := Option.map_eq_some_iff.mp hg
  obtain ⟨hmade, hid⟩ := List.getElem?_zip_eq_some.mp hzip
  have inside : i < charstrings.count := length ▸ (List.getElem?_eq_some_iff.mp hmade).1
  rw [Charset.getElem?_glyphIds_of_lt inside] at hid
  cases hid
  obtain ⟨charstring, htaken, -⟩ := Index.getElem?_consecutive_extents held inside
  obtain ⟨made', hmade', decodes⟩ := each i charstring htaken
  cases hmade.symm.trans hmade'
  refine ⟨UInt16.toNat_ofNat_of_lt' (show i < 65536 by omega), accepted.namesGlyph _ i _, rfl,
    decodes.selected.isSome_iff, fun number hnumber => ?_⟩
  simpa using decodes.fontDict_lt hnumber

/-- **The structure of a font that was read.** There is one font, put together from all that the table
has of it. So its glyphs have widths, and only where there is no glyph is there no width, and only there
is an outline refused for the number of the glyph. -/
theorem read_assembled {table : List UInt8} {options : ReadOptions} {set : FontSet}
    (h : read table options = .ok set) :
    ∃ font strings, set.fonts = [font] ∧ StringIndex table strings ∧
      font.Assembled table strings ∧
      (∀ number, (font.advance? number).isSome ↔ number.toNat < font.glyphs.size) ∧
      ∀ number e scale, (font.outline number e scale).1.fault = some (.read .badIndex) ↔
        font.glyphs.size ≤ number.toNat := by
  obtain ⟨header, names, tops, strings, inAll, topBytes, top, font, rest₀, rest₁, rest₂, rest₃, rest₄,
    rest₅, -, hheader, hnames, -, htops, -, -, -, hstrings, -, hfont, rfl⟩ := read_eq_ok.mp h
  have assembled := assembled_of_readFont (Index.accepted_of_read hstrings) hfont
  exact ⟨font, strings, rfl,
    ⟨header, names, tops, rest₁, rest₂, rest₃, rest₄, hheader, hnames, htops, hstrings⟩, assembled,
    assembled.isSome_advance?_iff, font.fault_outline_iff⟩

/-- A CID-keyed table of two glyphs, with one Font DICT that FDSelect assigns to both. -/
def keyedTable : List UInt8 :=
  [1, 0, 4, 1, 0, 1, 1, 1, 2, 65, 0, 1, 1, 1, 14, 140, 140, 139, 12, 30, 175, 17, 183, 12, 36, 188,
    12, 37, 0, 1, 1, 1, 2, 66, 0, 0, 0, 2, 1, 1, 2, 3, 14, 14, 0, 1, 1, 1, 1, 3, 0, 1, 0, 0, 0, 0, 2]

theorem exists_read_keyedTable :
    ∃ set font, read keyedTable {} = .ok set ∧ set.fonts = [font] ∧ font.glyphs.size = 2 ∧
      font.fontDicts.size = 1 ∧ font.isCidKeyed = true ∧
      font.glyphs.toList.map (fun g => (g.number, g.fontDict, g.name, g.sid)) =
        [(0, some 0, some ".notdef", 0), (1, some 0, none, 1)] := by
  let top : Dict :=
    ⟨.top, [(.ros, [.integer 1, .integer 1, .integer 0]), (.charStrings, [.integer 36]),
      (.fdArray, [.integer 44]), (.fdSelect, [.integer 49])]⟩
  have htop : Dict.ofBytes .top [140, 140, 139, 12, 30, 175, 17, 183, 12, 36, 188, 12, 37] =
      .ok top := by cbv
  have hdecode : Charstring.decode ⟨⟨.empty⟩, none⟩ [14] = .ok [.plain .endchar] := by cbv
  have hfontDict : Dict.ofBytes .font [] = .ok ⟨.font, []⟩ := by cbv
  have hselect (glyph : UInt16) (h : glyph = 0 ∨ glyph = 1) :
      selectFontDict (some (Selector.start ⟨#[⟨0, 0⟩], 2⟩)) glyph =
        .ok (some 0, some (Selector.start ⟨#[⟨0, 0⟩], 2⟩)) := by
    rcases h with rfl | rfl <;> rfl
  have hdecoded : decodeGlyphs ⟨.empty, none, #[none]⟩ {} 0 [14, 14]
      (some (Selector.start ⟨#[⟨0, 0⟩], 2⟩)) .new [⟨0, 1⟩, ⟨1, 1⟩] =
        .ok (List.replicate 2 (some 0, [.plain .endchar])) := by
    refine bind_eq_ok.mpr ⟨([14], [14]), rfl, bind_eq_ok.mpr ⟨_, hselect 0 (.inl rfl), ?_⟩⟩
    refine bind_eq_ok.mpr ⟨_, rfl, bind_eq_ok.mpr ⟨_, hdecode, bind_eq_ok.mpr ⟨_, ?_, rfl⟩⟩⟩
    refine bind_eq_ok.mpr ⟨([14], []), rfl, bind_eq_ok.mpr ⟨_, hselect 1 (.inr rfl), ?_⟩⟩
    exact bind_eq_ok.mpr ⟨_, rfl, bind_eq_ok.mpr ⟨_, hdecode, rfl⟩⟩
  have hfont (name : String) (strings : Array String) : ∃ font,
      readFont keyedTable name top strings .empty {} = .ok font ∧ font.glyphs.size = 2 ∧
        font.fontDicts.size = 1 ∧ font.isCidKeyed = true ∧
        font.glyphs.toList.map (fun g => (g.number, g.fontDict, g.name, g.sid)) =
          [(0, some 0, some ".notdef", 0), (1, some 0, none, 1)] := by
    obtain ⟨cid, hcid, fdArray, select⟩ : ∃ cid, readCid keyedTable top strings = .ok (some cid) ∧
        cid.fdArrayOffset = 44 ∧ cid.fdSelect = some ⟨#[⟨0, 0⟩], 2⟩ := ⟨_, rfl, rfl, rfl⟩
    obtain ⟨fontDict, hfontDicts, subroutines⟩ : ∃ fontDict,
        readFontDicts keyedTable (some cid) strings = .ok [fontDict] ∧
          fontDict.subroutines = none := by
      rw [readFontDicts, fdArray]
      exact ⟨_, bind_eq_ok.mpr ⟨⟨#[1, 1], #[]⟩, rfl, bind_eq_ok.mpr
        ⟨_, bind_eq_ok.mpr ⟨_, hfontDict, rfl⟩, rfl⟩⟩, rfl⟩
    have decodes : decodeGlyphs ⟨.empty, none, #[fontDict.subroutines]⟩ {} 0 [14, 14]
        (((some cid).bind (·.fdSelect)).map Selector.start) .new [⟨0, 1⟩, ⟨1, 1⟩] =
          .ok (List.replicate 2 (some 0, [.plain .endchar])) := by
      rw [subroutines, Option.bind_some, select]
      exact hdecoded
    refine ⟨_, readFont_eq_ok.mpr ⟨_, some cid, [fontDict], ⟨none, none, ⟨0, 0⟩⟩,
      ⟨#[1, 2, 3], #[14, 14]⟩, _, .isoAdobe, none, rfl, hcid, hfontDicts, rfl, rfl, decodes, rfl,
      rfl, rfl⟩, rfl, rfl, rfl, ?_⟩
    rw [← standardStrings_zero]
    rfl
  obtain ⟨font, hread, glyphs, fontDicts, keyed, listed⟩ := hfont _ _
  have hset := read_eq_ok.mpr ⟨⟨1, 0, 4, 1⟩, ⟨#[1, 2], #[65]⟩,
    ⟨#[1, 14], #[140, 140, 139, 12, 30, 175, 17, 183, 12, 36, 188, 12, 37]⟩, ⟨#[1, 2], #[66]⟩, .empty,
    _, _, _, _, _, _, _, _, _, rfl, rfl, rfl, rfl, rfl, rfl, rfl, htop, rfl, rfl, hread, rfl⟩
  exact ⟨_, font, hset, rfl, glyphs, fontDicts, keyed, listed⟩

/-- A table of four glyphs that is not CID-keyed. The SIDs of the last three are that of the one object of
its String INDEX, that of a standard string, and one that is out of range. -/
def namedTable : List UInt8 :=
  [1, 0, 4, 1, 0, 1, 1, 1, 2, 65, 0, 1, 1, 1, 5, 179, 15, 167, 17, 0, 1, 1, 1, 3, 195, 169, 0, 0,
    0, 4, 1, 1, 2, 3, 4, 5, 14, 14, 14, 14, 0, 1, 135, 0, 1, 1, 244]

theorem exists_read_namedTable :
    ∃ set font, read namedTable {} = .ok set ∧ set.fonts = [font] ∧ font.isCidKeyed = false ∧
      font.glyphs.toList.map (fun g => (g.number, g.fontDict, g.name, g.sid)) =
        [(0, none, some ".notdef", 0), (1, none, some "é", 391), (2, none, some "space", 1),
          (3, none, none, 500)] := by
  let top : Dict := ⟨.top, [(.charset, [.integer 40]), (.charStrings, [.integer 28])]⟩
  have htop : Dict.ofBytes .top [179, 15, 167, 17] = .ok top := by cbv
  have hcharset : readCharset namedTable top 4 = .ok (.custom (.list [391, 1, 500])) :=
    bind_eq_ok.mpr ⟨40, rfl, bind_eq_ok.mpr ⟨40, rfl, bind_eq_ok.mpr ⟨_, rfl, rfl⟩⟩⟩
  let glyphs (strings : Array String) : List Glyph :=
    ((List.replicate 4 (none, [.plain .endchar])).zip [some 0, some 391, some 1, some 500]).mapIdx
      fun glyph made => makeGlyph strings false {} glyph made.1 made.2
  have hfont (name : String) (strings : Array String) : ∃ font,
      readFont namedTable name top strings .empty {} = .ok font ∧ font.isCidKeyed = false ∧
        font.glyphs.toList = glyphs strings :=
    ⟨_, readFont_eq_ok.mpr ⟨_, none, [], ⟨none, none, ⟨0, 0⟩⟩,
      ⟨#[1, 2, 3, 4, 5], #[14, 14, 14, 14]⟩, _, _, some .standard, rfl, rfl, rfl, rfl, rfl,
      decodeGlyphs_endchars _, hcharset, rfl, rfl⟩, rfl, rfl⟩
  obtain ⟨font, hread, keyed, listed⟩ := hfont _ _
  have hset := read_eq_ok.mpr ⟨⟨1, 0, 4, 1⟩, ⟨#[1, 2], #[65]⟩, ⟨#[1, 5], #[179, 15, 167, 17]⟩,
    ⟨#[1, 3], #[195, 169]⟩, .empty, _, _, _, _, _, _, _, _, _, rfl, rfl, rfl, rfl, rfl, rfl, rfl, htop,
    rfl, rfl, hread, rfl⟩
  have strings : ((⟨#[1, 3], #[195, 169]⟩ : Index).objects.map Utf8.decode).toArray = #["é"] :=
    congrArg (fun name => #[name]) (Utf8.decode_encode "é")
  rw [strings] at listed
  refine ⟨_, font, hset, rfl, keyed, ?_⟩
  rw [listed]
  decide +kernel

/-- The glyphs of a CID-keyed font have Font DICTs and no names. Those of the other font have names: from its
String INDEX, from the standard strings, and none where the SID is out of range. -/
theorem read_assembled_twoTables :
    (∃ set font strings, read keyedTable {} = .ok set ∧ set.fonts = [font] ∧
      StringIndex keyedTable strings ∧ font.Assembled keyedTable strings ∧
      font.glyphs.size = 2 ∧ font.fontDicts.size = 1 ∧ font.isCidKeyed = true ∧
      font.glyphs.toList.map (fun g => (g.number, g.fontDict, g.name, g.sid)) =
        [(0, some 0, some ".notdef", 0), (1, some 0, none, 1)] ∧
      (font.advance? 1).isSome ∧ ¬(font.advance? 2).isSome ∧
      ∀ e scale, (font.outline 2 e scale).1.fault = some (.read .badIndex)) ∧
    ∃ set font strings, read namedTable {} = .ok set ∧ set.fonts = [font] ∧
      StringIndex namedTable strings ∧ font.Assembled namedTable strings ∧
      font.isCidKeyed = false ∧
      font.glyphs.toList.map (fun g => (g.number, g.fontDict, g.name, g.sid)) =
        [(0, none, some ".notdef", 0), (1, none, some "é", 391), (2, none, some "space", 1),
          (3, none, none, 500)] := by
  constructor
  · obtain ⟨set, font, hset, fonts, glyphs, fontDicts, keyed, listed⟩ := exists_read_keyedTable
    obtain ⟨font', strings, fonts', hstrings, assembled, advance, outline⟩ := read_assembled hset
    obtain rfl : font = font' := List.singleton_inj.mp (fonts.symm.trans fonts')
    refine ⟨set, font, strings, hset, fonts, hstrings, assembled, glyphs, fontDicts, keyed, listed,
      (advance 1).mpr ?_, fun h => ?_, fun e scale => (outline 2 e scale).mpr ?_⟩
    · rw [glyphs]
      decide
    · have missing := (advance 2).mp h
      rw [glyphs] at missing
      exact absurd missing (by decide)
    · rw [glyphs]
      decide
  · obtain ⟨set, font, hset, fonts, keyed, listed⟩ := exists_read_namedTable
    obtain ⟨font', strings, fonts', hstrings, assembled, -⟩ := read_assembled hset
    obtain rfl : font = font' := List.singleton_inj.mp (fonts.symm.trans fonts')
    exact ⟨set, font, strings, hset, fonts, hstrings, assembled, keyed, listed⟩

end FontSet

end CompactFont
