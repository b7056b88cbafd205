import CompactFont.Font.Reading
import CompactFont.Proofs.Outcome

/-!
# Accepted tables

A table is read part by part, each from what is known before it. The reading succeeds just when that
of each part does, and then the font set is what the parts make up (`read_eq_ok`, and for the font
in it `readFont_eq_ok`).
-/

namespace CompactFont.FontSet

/-- The parts of a font. -/
theorem readFont_eq_ok {table : List UInt8} {name : String} {top : Dict} {strings : Array String}
    {inAll : Index} {options : ReadOptions} {font : Font} :
    readFont table name top strings inAll options = .ok font ↔
      ∃ metrics cid fontDicts priv charstrings decoded charset encoding,
        readMetrics top = .ok metrics ∧ readCid table top strings = .ok cid ∧
        readFontDicts table cid strings = .ok fontDicts ∧
        readFontPrivate table cid top = .ok priv ∧ readCharstrings table top = .ok charstrings ∧
        decodeGlyphs ⟨inAll, priv.subroutines, (fontDicts.map (·.subroutines)).toArray⟩ options 0
          charstrings.data.toList ((cid.bind (·.fdSelect)).map Selector.start) .new
          charstrings.extents = .ok decoded ∧
        readCharset table top charstrings.count = .ok charset ∧
        readEncoding table cid top = .ok encoding ∧
        font = { name, texts := textsOf top strings, metrics, topDict := top, cid,
                 fontDicts := fontDicts.toArray, priv, globalSubroutines := inAll,
                 glyphs := ((decoded.zip (charset.glyphIds charstrings.count)).mapIdx
                   fun glyph (decoded, id) =>
                     makeGlyph strings cid.isSome options glyph decoded id).toArray,
                 charset, encoding } := by
  constructor
  · intro h
    obtain ⟨metrics, hmetrics, h⟩ := bind_eq_ok.mp h
    obtain ⟨cid, hcid, h⟩ := bind_eq_ok.mp h
    obtain ⟨fontDicts, hfontDicts, h⟩ := bind_eq_ok.mp h
    obtain ⟨priv, hpriv, h⟩ := bind_eq_ok.mp h
    obtain ⟨charstrings, hcharstrings, h⟩ := bind_eq_ok.mp h
    obtain ⟨decoded, hdecoded, h⟩ := bind_eq_ok.mp h
    obtain ⟨charset, hcharset, h⟩ := bind_eq_ok.mp h
    obtain ⟨encoding, hencoding, h⟩ := bind_eq_ok.mp h
    cases h
    exact ⟨metrics, cid, fontDicts, priv, charstrings, decoded, charset, encoding,
      lift_eq_ok.mp hmetrics, hcid, lift_eq_ok.mp hfontDicts, lift_eq_ok.mp hpriv,
      lift_eq_ok.mp hcharstrings, hdecoded, hcharset, hencoding, rfl⟩
  · rintro ⟨metrics, cid, fontDicts, priv, charstrings, decoded, charset, encoding, hmetrics, hcid,
      hfontDicts, hpriv, hcharstrings, hdecoded, hcharset, hencoding, rfl⟩
    refine bind_eq_ok.mpr ⟨metrics, lift_eq_ok.mpr hmetrics, ?_⟩
    refine bind_eq_ok.mpr ⟨cid, hcid, ?_⟩
    refine bind_eq_ok.mpr ⟨fontDicts, lift_eq_ok.mpr hfontDicts, ?_⟩
    refine bind_eq_ok.mpr ⟨priv, lift_eq_ok.mpr hpriv, ?_⟩
    refine bind_eq_ok.mpr ⟨charstrings, lift_eq_ok.mpr hcharstrings, ?_⟩
    refine bind_eq_ok.mpr ⟨decoded, hdecoded, ?_⟩
    refine bind_eq_ok.mpr ⟨charset, hcharset, ?_⟩
    exact bind_eq_ok.mpr ⟨encoding, hencoding, rfl⟩

/-- The parts of a table. -/
theorem read_eq_ok {table : List UInt8} {options : ReadOptions} {set : FontSet} :
    read table options = .ok set ↔
      ∃ header names tops strings inAll topBytes top font rest₀ rest₁ rest₂ rest₃ rest₄ rest₅,
        Cell.uint8.read table = .ok (1, rest₀) ∧ Header.read table = .ok (header, rest₁) ∧
        Index.read rest₁ = .ok (names, rest₂) ∧ names.count = 1 ∧
        Index.read rest₂ = .ok (tops, rest₃) ∧ tops.count = 1 ∧ tops.get? 0 = some topBytes ∧
        Dict.ofBytes .top topBytes = .ok top ∧ Index.read rest₃ = .ok (strings, rest₄) ∧
        Index.read rest₄ = .ok (inAll, rest₅) ∧
        readFont table ((names.objects.map Utf8.decode).headD "") top
          (strings.objects.map Utf8.decode).toArray inAll options = .ok font ∧
        set = { header, names := names.objects.map Utf8.decode,
                strings := (strings.objects.map Utf8.decode).toArray, fonts := [font] } := by
  constructor
  · intro h
    obtain ⟨⟨major, rest₀⟩, hmajor, h⟩ := bind_eq_ok.mp h
    dsimp only at h
    split at h
    · rename_i version
      subst version
      unfold readVersion1 at h
      obtain ⟨⟨header, rest₁⟩, hheader, h⟩ := bind_eq_ok.mp h
      obtain ⟨⟨names, rest₂⟩, hnames, h⟩ := bind_eq_ok.mp h
      dsimp only at h
      split at h
      · cases h
      split at h
      · cases h
      rename_i oneName
      obtain ⟨⟨tops, rest₃⟩, htops, h⟩ := bind_eq_ok.mp h
      dsimp only at h
      split at h
      · cases h
      split at h
      · cases h
      rename_i oneTop
      split at h
      · rename_i topBytes hbytes
        obtain ⟨_, hpure, h⟩ := bind_eq_ok.mp h
        cases hpure
        obtain ⟨top, htop, h⟩ := bind_eq_ok.mp h
        obtain ⟨⟨strings, rest₄⟩, hstrings, h⟩ := bind_eq_ok.mp h
        obtain ⟨⟨inAll, rest₅⟩, hinAll, h⟩ := bind_eq_ok.mp h
        obtain ⟨font, hfont, h⟩ := bind_eq_ok.mp h
        cases h
        exact ⟨header, names, tops, strings, inAll, topBytes, top, font, rest₀, rest₁, rest₂, rest₃,
          rest₄, rest₅, lift_eq_ok.mp hmajor, lift_eq_ok.mp hheader, lift_eq_ok.mp hnames,
          Decidable.not_not.mp oneName, lift_eq_ok.mp htops, Decidable.not_not.mp oneTop, hbytes,
          lift_eq_ok.mp htop, lift_eq_ok.mp hstrings, lift_eq_ok.mp hinAll, hfont, rfl⟩
      · cases h
    · split at h
      · obtain ⟨⟨header, rest⟩, -, h⟩ := bind_eq_ok.mp h
        cases h
      · cases h
  · rintro ⟨header, names, tops, strings, inAll, topBytes, top, font, rest₀, rest₁, rest₂, rest₃,
      rest₄, rest₅, hmajor, hheader, hnames, oneName, htops, oneTop, hbytes, htop, hstrings, hinAll,
      hfont, rfl⟩
    refine bind_eq_ok.mpr ⟨(1, rest₀), lift_eq_ok.mpr hmajor, ?_⟩
    change readVersion1 table options = _
    refine bind_eq_ok.mpr ⟨(header, rest₁), lift_eq_ok.mpr hheader, ?_⟩
    refine bind_eq_ok.mpr ⟨(names, rest₂), lift_eq_ok.mpr hnames, ?_⟩
    dsimp only
    rw [if_neg (by omega), if_neg (Decidable.not_not.mpr oneName)]
    refine bind_eq_ok.mpr ⟨(tops, rest₃), lift_eq_ok.mpr htops, ?_⟩
    dsimp only
    rw [if_neg (by omega), if_neg (Decidable.not_not.mpr oneTop), hbytes]
    refine bind_eq_ok.mpr ⟨topBytes, rfl, ?_⟩
    refine bind_eq_ok.mpr ⟨top, lift_eq_ok.mpr htop, ?_⟩
    refine bind_eq_ok.mpr ⟨(strings, rest₄), lift_eq_ok.mpr hstrings, ?_⟩
    refine bind_eq_ok.mpr ⟨(inAll, rest₅), lift_eq_ok.mpr hinAll, ?_⟩
    exact bind_eq_ok.mpr ⟨font, hfont, rfl⟩

/-- A font of a table was read with what stands before it. -/
theorem exists_readFont {table : List UInt8} {options : ReadOptions} {set : FontSet}
    (h : read table options = .ok set) {font : Font} (hfont : font ∈ set.fonts) :
    ∃ name top strings inAll, readFont table name top strings inAll options = .ok font := by
  obtain ⟨_, names, _, strings, inAll, _, top, font', _, _, _, _, _, _, _, _, _, _, _, _, _, _, _,
    _, hread, rfl⟩ := read_eq_ok.mp h
  rw [List.mem_singleton.mp hfont]
  exact ⟨_, top, _, inAll, hread⟩

end CompactFont.FontSet
