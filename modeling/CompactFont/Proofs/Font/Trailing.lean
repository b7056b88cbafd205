import CompactFont.Proofs.Bytes.Exact
import CompactFont.Proofs.Font.Compaction

/-!
# Bytes after a table

A table often stands in a file with other bytes after it. Nothing that is read from the table looks
for its end: every reader takes what it needs and leaves the rest (`Exact`), and a part that is
found by its offset is read from there on. So what was read is still read when the table grows at
its end (`Extends`), part by part and for the whole of it (**`read_append`**).

Only what is read may be told apart from more bytes; a table that is too short can become long
enough, so that a fault need not stay.
-/

namespace CompactFont

/-! ### Readers of the parts of a table -/

theorem Index.exact_read : Exact Index.read := by
  refine Exact.bind (Exact.read _) fun count => ?_
  split
  · exact Exact.pure _
  · refine Exact.bind (Exact.read _) fun size => ?_
    refine Exact.bind (Exact.require _ _) fun _ => ?_
    refine Exact.bind (Exact.take _) fun table => ?_
    refine Exact.bind (Exact.require _ _) fun _ => ?_
    refine Exact.bind (Exact.take _) fun data => ?_
    exact Exact.bind (Exact.require _ _) fun _ => Exact.pure _

theorem Header.exact_read : Exact Header.read := by
  refine Exact.bind (Exact.read _) fun major => ?_
  refine Exact.bind (Exact.require _ _) fun _ => ?_
  refine Exact.bind (Exact.read _) fun minor => ?_
  refine Exact.bind (Exact.read _) fun size => ?_
  refine Exact.bind (Exact.read _) fun offsetSize => ?_
  refine Exact.bind (Exact.require _ _) fun _ => ?_
  refine Exact.bind (Exact.require _ _) fun _ => ?_
  exact Exact.bind (Exact.take _) fun _ => Exact.pure _

theorem FdSelect.exact_read : Exact FdSelect.read := by
  refine Exact.bind (Exact.read _).lift fun found => ?_
  split
  · refine Exact.bind (Exact.read _).lift fun count => ?_
    refine Exact.bind (Exact.readList _ _).lift fun ranges => ?_
    exact Exact.bind (Exact.read _).lift fun sentinel => Exact.pure _
  · exact Exact.throw _

theorem CustomEncoding.exact_readCounted {α : Type} (cell : Cell α) : Exact (readCounted cell) :=
  Exact.bind (Exact.read _) fun _ => Exact.readList _ _

theorem CustomEncoding.exact_read : Exact CustomEncoding.read := by
  refine Exact.bind (Exact.read _).lift fun format => ?_
  have supplements (codes : EncodingCodes) : Exact (
      if format &&& supplementBit = supplementBit then do
        return ⟨codes, ← (readCounted Supplement.cell : Reader _)⟩
      else return ⟨codes, []⟩ : TableReader CustomEncoding) := by
    split
    · exact Exact.bind (exact_readCounted _).lift fun _ => Exact.pure _
    · exact Exact.pure _
  dsimp only
  split
  · exact Exact.bind (Exact.map (exact_readCounted _).lift _) supplements
  · split
    · exact Exact.bind (Exact.map (exact_readCounted _).lift _) supplements
    · exact Exact.bind (Exact.throw _) supplements

/-- The runs are counted among the bytes of just as many runs. -/
theorem CustomCharset.exists_of_countRuns {Left : Type} {cell : Cell (Run UInt16 Left)}
    {left : Left → Nat} {glyphs count : Nat} {bytes : List UInt8}
    (h : countRuns cell left glyphs bytes = .ok count) :
    ∃ front rest, bytes = front ++ rest ∧ front.length = count * cell.width ∧
      ∀ more, countRuns cell left glyphs (front ++ more) = .ok count := by
  induction glyphs using Nat.strongRecOn generalizing bytes count with
  | ind glyphs ih =>
    unfold countRuns at h ⊢
    by_cases covered : glyphs = 0
    · simp only [if_pos covered] at h ⊢
      cases h
      exact ⟨[], bytes, rfl, (Nat.zero_mul _).symm, fun more => rfl⟩
    · simp only [if_neg covered] at h ⊢
      obtain ⟨⟨run, rest⟩, read, h⟩ := bind_eq_ok.mp h
      obtain ⟨others, counted, h⟩ := bind_eq_ok.mp h
      cases h
      obtain ⟨first, length, rfl, rfl⟩ := Cell.read_eq_ok read
      obtain ⟨front, rest, rfl, length', each⟩ := ih _ (by omega) counted
      refine ⟨first ++ front, rest, (List.append_assoc _ _ _).symm, ?_, fun more => ?_⟩
      · rw [List.length_append, length, length', Nat.succ_mul, Nat.add_comm]
      · have read : cell.read (first ++ (front ++ more)) = .ok (cell.decode first, front ++ more) :=
          Reader.map_of (Reader.take_append length) cell.decode
        rw [List.append_assoc]
        exact bind_eq_ok.mpr ⟨_, read, bind_eq_ok.mpr ⟨_, each more, rfl⟩⟩

theorem CustomCharset.exact_readRuns {Left : Type} (cell : Cell (Run UInt16 Left))
    (left : Left → Nat) (glyphs : Nat) : Exact (readRuns cell left glyphs) := by
  intro bytes runs rest h
  obtain ⟨count, counted, h⟩ := bind_eq_ok.mp h
  obtain ⟨⟨items, left⟩, read, h⟩ := bind_eq_ok.mp h
  cases h
  obtain ⟨front, after, rfl, length, each⟩ := exists_of_countRuns counted
  obtain ⟨small, block, length', split, rfl⟩ := Packed.read_eq_ok.mp read
  obtain ⟨rfl, rfl⟩ := List.append_inj split (length.trans length'.symm)
  refine ⟨front, rfl, fun more => bind_eq_ok.mpr ⟨count, each more, ?_⟩⟩
  exact Reader.map_of (Packed.read_eq_ok.mpr ⟨small, front, length, rfl, rfl⟩) Packed.toList

theorem CustomCharset.exact_read (glyphs : Nat) : Exact (CustomCharset.read glyphs) := by
  unfold CustomCharset.read
  have charset : Exact (do
      let format ← (Cell.uint8.read : Reader UInt8)
      if format = 0 then
        return .list (← (Packed.readList Cell.uint16 (glyphs - 1) : Reader _))
      else if format = 1 then
        return .short (← (readRuns Run.short UInt8.toNat (glyphs - 1) : Reader _))
      else if format = 2 then
        return .long (← (readRuns Run.long UInt16.toNat (glyphs - 1) : Reader _))
      else throw (.unsupportedCharsetFormat format) : TableReader CustomCharset) := by
    refine Exact.bind (Exact.read _).lift fun format => ?_
    split
    · exact Exact.bind (Exact.readList _ _).lift fun _ => Exact.pure _
    split
    · exact Exact.bind (exact_readRuns _ _ _).lift fun _ => Exact.pure _
    split
    · exact Exact.bind (exact_readRuns _ _ _).lift fun _ => Exact.pure _
    · exact Exact.throw _
  dsimp only
  split
  · exact Exact.bind (Exact.throw _) fun _ => charset
  · exact charset

namespace FontSet

/-! ### Parts of a table that is longer -/

section

variable (table extra : List UInt8)

/-- What is read at an offset does not depend on what comes after the table. -/
theorem extends_readAt {ε α : Type} {r : ReaderOf ε α} (exact : Exact r) (offset : Nat) :
    Extends (readAt table offset r) (readAt (table ++ extra) offset r) := by
  intro value h
  obtain ⟨⟨_, rest⟩, hread, rfl⟩ := map_eq_ok.mp h
  refine map_eq_ok.mpr ⟨(_, rest ++ extra.drop (offset - table.length)), ?_, rfl⟩
  rw [List.drop_append]
  exact exact.append hread _

/-- A window that lies within the table stays as it is. -/
theorem extends_window (start length : Nat) :
    Extends ((Scope.ofBytes table).window start length)
      ((Scope.ofBytes (table ++ extra)).window start length) := by
  intro scope h
  obtain ⟨starts, ends, hscope⟩ := Scope.window_eq_ok.mp h
  have grown : (table ++ extra).drop start =
      table.drop start ++ extra.drop (start - table.length) := List.drop_append
  simp only [Scope.ofBytes] at starts ends hscope
  refine Scope.window_eq_ok.mpr ⟨?_, ?_, ?_⟩
  · simp only [Scope.ofBytes, List.length_append]
    omega
  · simp only [Scope.ofBytes, grown, List.length_append]
    omega
  · simp only [Scope.ofBytes, grown, List.take_append_of_le_length ends, hscope]

theorem extends_readPrivateDict (size offset : Nat) :
    Extends (readPrivateDict table size offset) (readPrivateDict (table ++ extra) size offset) := by
  unfold readPrivateDict
  split
  · exact Extends.refl _
  · exact Extends.bind (extends_window table extra offset size) fun scope => Extends.refl _

theorem extends_readSubroutines (dict : Dict) (offset : Nat) :
    Extends (readSubroutines table dict offset) (readSubroutines (table ++ extra) dict offset) := by
  unfold readSubroutines
  split
  · exact Extends.refl _
  · refine Extends.of_each _ fun number => Extends.of_each _ fun place => ?_
    exact Extends.bind (extends_readAt table extra Index.exact_read _) fun _ => Extends.refl _

theorem extends_readCid (top : Dict) (strings : Array String) :
    Extends (readCid table top strings) (readCid (table ++ extra) top strings) := by
  unfold readCid
  split
  · exact Extends.refl _
  · refine Extends.of_each _ fun registry => Extends.of_each _ fun ordering => ?_
    refine Extends.of_each _ fun supplement => Extends.of_each _ fun version => ?_
    refine Extends.of_each _ fun number => Extends.of_each _ fun count => ?_
    refine Extends.of_each _ fun fdArrayOffset => Extends.of_each _ fun fdSelectOffset => ?_
    dsimp only
    split
    · exact Extends.refl _
    · refine Extends.bind ((extends_readAt table extra FdSelect.exact_read _).map some) fun _ => ?_
      exact Extends.refl _
  · exact Extends.refl _

theorem extends_readFontDict (strings : Array String) (bytes : List UInt8) :
    Extends (readFontDict table strings bytes) (readFontDict (table ++ extra) strings bytes) := by
  unfold readFontDict
  refine Extends.of_each _ fun dict => ?_
  refine Extends.of_each _ fun range => ?_
  refine Extends.bind (extends_readPrivateDict table extra _ _) fun priv => ?_
  refine Extends.bind (extends_readSubroutines table extra _ _) fun subroutines => ?_
  exact Extends.refl _

theorem extends_readFontDicts (cid : Option CidInfo) (strings : Array String) :
    Extends (readFontDicts table cid strings) (readFontDicts (table ++ extra) cid strings) := by
  unfold readFontDicts
  split
  · exact Extends.refl _
  · split
    · exact Extends.refl _
    · refine Extends.bind (extends_readAt table extra Index.exact_read _) fun dicts => ?_
      exact Extends.mapM (extends_readFontDict table extra strings) dicts.objects

theorem extends_readFontPrivate (cid : Option CidInfo) (top : Dict) :
    Extends (readFontPrivate table cid top) (readFontPrivate (table ++ extra) cid top) := by
  unfold readFontPrivate
  split
  · exact Extends.refl _
  · refine Extends.of_each _ fun range => ?_
    split
    · exact Extends.refl _
    · refine Extends.bind (extends_readPrivateDict table extra _ _) fun dict => ?_
      refine Extends.bind (extends_readSubroutines table extra _ _) fun subroutines => ?_
      exact Extends.refl _

theorem extends_readCharstrings (top : Dict) :
    Extends (readCharstrings table top) (readCharstrings (table ++ extra) top) := by
  refine Extends.of_each _ fun number => Extends.of_each _ fun offset => ?_
  exact extends_readAt table extra Index.exact_read offset

theorem extends_readCharset (top : Dict) (glyphs : Nat) :
    Extends (readCharset table top glyphs) (readCharset (table ++ extra) top glyphs) := by
  refine Extends.of_each _ fun number => ?_
  split
  · exact Extends.refl _
  split
  · exact Extends.refl _
  split
  · exact Extends.refl _
  refine Extends.of_each _ fun offset => ?_
  exact Extends.bind (extends_readAt table extra (CustomCharset.exact_read glyphs) _) fun _ =>
    Extends.refl _

theorem extends_readEncoding (cid : Option CidInfo) (top : Dict) :
    Extends (readEncoding table cid top) (readEncoding (table ++ extra) cid top) := by
  unfold readEncoding
  split
  · exact Extends.refl _
  · refine Extends.of_each _ fun number => ?_
    split
    · exact Extends.refl _
    split
    · exact Extends.refl _
    refine Extends.of_each _ fun offset => ?_
    exact Extends.bind (extends_readAt table extra CustomEncoding.exact_read _) fun _ =>
      Extends.refl _

end

/-! ### The whole table -/

theorem extends_readFont (table extra : List UInt8) (name : String) (top : Dict)
    (strings : Array String) (inAll : Index) (options : ReadOptions) :
    Extends (readFont table name top strings inAll options)
      (readFont (table ++ extra) name top strings inAll options) := by
  intro font h
  obtain ⟨metrics, cid, fontDicts, priv, charstrings, decoded, charset, encoding, hmetrics, hcid,
    hfontDicts, hpriv, hcharstrings, hdecoded, hcharset, hencoding, hfont⟩ := readFont_eq_ok.mp h
  exact readFont_eq_ok.mpr ⟨metrics, cid, fontDicts, priv, charstrings, decoded, charset, encoding,
    hmetrics, extends_readCid _ _ _ _ _ hcid, extends_readFontDicts _ _ _ _ _ hfontDicts,
    extends_readFontPrivate _ _ _ _ _ hpriv, extends_readCharstrings _ _ _ _ hcharstrings, hdecoded,
    extends_readCharset _ _ _ _ _ hcharset, extends_readEncoding _ _ _ _ _ hencoding, hfont⟩

/-- **Bytes after a table do not matter.** A table that is read, with compacted glyphs or without, is
read to the same font set when other bytes come after it. -/
theorem read_append {table : List UInt8} {options : ReadOptions} {set : FontSet}
    (h : read table options = .ok set) (extra : List UInt8) :
    read (table ++ extra) options = .ok set := by
  obtain ⟨header, names, tops, strings, inAll, topBytes, top, font, rest₀, rest₁, rest₂, rest₃, rest₄,
    rest₅, hmajor, hheader, hnames, oneName, htops, oneTop, hbytes, htop, hstrings, hinAll, hfont,
    hset⟩ := read_eq_ok.mp h
  exact read_eq_ok.mpr ⟨header, names, tops, strings, inAll, topBytes, top, font, rest₀ ++ extra,
    rest₁ ++ extra, rest₂ ++ extra, rest₃ ++ extra, rest₄ ++ extra, rest₅ ++ extra,
    (Exact.read _).append hmajor extra, Header.exact_read.append hheader extra,
    Index.exact_read.append hnames extra, oneName, Index.exact_read.append htops extra, oneTop,
    hbytes, htop, Index.exact_read.append hstrings extra, Index.exact_read.append hinAll extra,
    extends_readFont _ _ _ _ _ _ _ _ hfont, hset⟩

/-- After the charstrings of a table, more bytes that could belong to a charstring. -/
theorem read_append_widthsTable :
    ∃ set font g, read widthsTable ⟨true⟩ = .ok set ∧
      read (widthsTable ++ [139, 22, 14]) ⟨true⟩ = .ok set ∧ font ∈ set.fonts ∧
      font.glyph? 1 = some g ∧ g.instructions = lateGlyph true := by
  obtain ⟨set, font, -, g, hset, hfont, -, -, -, hg, instructions⟩ := exists_read_widthsTable true
  exact ⟨set, font, g, hset, read_append hset [139, 22, 14], hfont, hg, instructions⟩

end FontSet

end CompactFont
