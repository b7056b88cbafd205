import CompactFont.Font.Writing
import CompactFont.Proofs.Dict.Written
import CompactFont.Proofs.Font.Glyphs
import CompactFont.Proofs.Index.Written
import CompactFont.Proofs.Text.Utf8

/-!
# Fonts come back from their tables

A font of the plainest kind is written as a header, five INDEXes, a Private DICT and maybe one INDEX
more (`FontSource.encode`). When the table is read, the first INDEXes follow each other; the others and
the DICT are found by offsets. Those in the Top DICT count from the start of the table. They are right
since the Top DICT has the same length whatever they are (`FontSource.length_front`), and since they
fit the integers that hold them, as long as the table is no longer than these can tell.

**`FontSource.exists_fontSet`**: the table is read, and what comes back is the name, the strings, the
widths that the Private DICT states, and a glyph for each charstring, which stands for what the
charstring decodes to. It takes that every charstring decodes, and that there are no more objects in an
INDEX than it can count (`FontSource.Writable`).
-/

namespace CompactFont

open Charstring (Instruction SubroutineSets Subroutines Compactor expand)

/-! ### Entries of integers -/

/-- An integer, and a form that has room for it. -/
structure WrittenInteger where
  /-- The integer. -/
  value : Int32
  /-- How it is written. -/
  form : IntForm
  /-- It can be written so. -/
  fits : form.Fits value.toInt

namespace WrittenInteger

/-- A number in the long form, as sizes and offsets are written. -/
def ofNat (n : Nat) : WrittenInteger where
  value := Int32.ofInt n
  form := .long
  fits := ⟨Int32.le_toInt _, Int.le_of_lt_add_one (Int32.toInt_lt _)⟩

/-- The integer as an operand with its form. -/
def operand (n : WrittenInteger) : Operand × IntForm := (.integer n.value, n.form)

/-- The bytes of the integer. -/
def encode (n : WrittenInteger) : List UInt8 := n.form.encode n.value.toInt

@[simp] theorem encode_ofNat (n : Nat) : (ofNat n).encode = FontSource.number n := by
  show 29 :: Cell.int32.encode (Int32.ofInt (Int32.ofInt n).toInt) = _
  rw [Int32.ofInt_toInt]
  rfl

/-- An entry with integers as operands. -/
def entry (op : Operator) (ns : List WrittenInteger) : Operator × List (Operand × IntForm) :=
  (op, ns.map operand)

theorem encode_entry (op : Operator) (ns : List WrittenInteger) :
    Dict.encode [entry op ns] = ns.flatMap encode ++ op.encode := by
  rw [Dict.encode, List.flatMap_cons, List.flatMap_nil, List.append_nil]
  simp only [entry, List.flatMap_map]
  rfl

theorem writable_entry {op : Operator} {ns : List WrittenInteger}
    (accepts : op.kind.accepts ns.length = true) : Dict.Writable (entry op ns) := by
  refine ⟨by rw [entry, List.length_map]; exact accepts, fun operand h => ?_⟩
  obtain ⟨n, -, rfl⟩ := List.mem_map.mp h
  exact n.fits

/-- An entry with one integer as its operand, if there is one. -/
def entry? (op : Operator) (n : Option WrittenInteger) : List (Operator × List (Operand × IntForm)) :=
  n.toList.map fun n => entry op [n]

theorem writable_of_mem_entry? (op : Operator) (accepts : op.kind.accepts 1 = true)
    (n : Option WrittenInteger) : ∀ e ∈ entry? op n, Dict.Writable e := by
  intro e h
  obtain ⟨n, -, rfl⟩ := List.mem_map.mp h
  exact writable_entry accepts

/-- An offset that is not too large for the integer that holds it comes back. -/
theorem offsetOfInt32_ofNat {n : Nat} (small : n < 2147483648) :
    offsetOfInt32 (ofNat n).value = .ok n := by
  have value : (ofNat n).value.toInt = n := Int32.toInt_ofInt_of_le (by omega) (by omega)
  rw [offsetOfInt32, value, if_pos (Int.natCast_nonneg n), Int.toNat_natCast]

end WrittenInteger

open WrittenInteger (entry entry?)

/-! ### Private DICTs that state widths -/

/-- The widths that a Private DICT states. It states each of them once or not at all. -/
structure StatedWidths where
  /-- The default width. -/
  default : Option WrittenInteger
  /-- The nominal width. -/
  nominal : Option WrittenInteger
  /-- The nominal width is stated first, if both are. -/
  nominalFirst : Bool

namespace StatedWidths

variable (w : StatedWidths)

/-- The entries that state the widths. -/
def entries : List (Operator × List (Operand × IntForm)) :=
  if w.nominalFirst then entry? .nominalWidthX w.nominal ++ entry? .defaultWidthX w.default
  else entry? .defaultWidthX w.default ++ entry? .nominalWidthX w.nominal

/-- The widths, each the integer that is stated. One that is not stated is zero. -/
def widths : Widths where
  default := (w.default.map fun n => Float.ofInt n.value.toInt).getD 0
  nominal := (w.nominal.map fun n => Float.ofInt n.value.toInt).getD 0

/-- The entries of a Private DICT that states the widths, and may tell where its subroutines are. -/
def withSubroutines (subrs : Option WrittenInteger) : List (Operator × List (Operand × IntForm)) :=
  w.entries ++ entry? .subrs subrs

theorem writable_of_mem_withSubroutines (subrs : Option WrittenInteger) :
    ∀ e ∈ w.withSubroutines subrs, Dict.Writable e := by
  have default := WrittenInteger.writable_of_mem_entry? .defaultWidthX rfl w.default
  have nominal := WrittenInteger.writable_of_mem_entry? .nominalWidthX rfl w.nominal
  have subrs := WrittenInteger.writable_of_mem_entry? .subrs rfl subrs
  intro e h
  unfold withSubroutines entries at h
  split at h <;> simp only [List.mem_append] at h
  · exact h.elim (Or.elim · (nominal e) (default e)) (subrs e)
  · exact h.elim (Or.elim · (default e) (nominal e)) (subrs e)

/-- The Private DICT that has these entries. -/
def privateDict (subrs : Option WrittenInteger) : Dict :=
  ⟨.priv, (w.withSubroutines subrs).map Dict.withoutForms⟩

/-- The widths are read off their entries, in either order. -/
theorem readWidths_privateDict (subrs : Option WrittenInteger) :
    FontSet.readWidths (w.privateDict subrs) = .ok w.widths := by
  obtain ⟨default, nominal, nominalFirst⟩ := w
  cases default <;> cases nominal <;> cases nominalFirst <;> cases subrs <;> rfl

/-- So is the place of the subroutines. -/
theorem int?_privateDict_subrs (subrs : Option WrittenInteger) :
    (w.privateDict subrs).int? .subrs = subrs.map fun n => .ok n.value := by
  obtain ⟨default, nominal, nominalFirst⟩ := w
  cases default <;> cases nominal <;> cases nominalFirst <;> cases subrs <;> rfl

end StatedWidths

/-! ### The table -/

namespace FontSource

variable (s : FontSource)

/-- The subroutines of the Private DICT. It has none if the list of them is empty. -/
def localIndex? : Option Index :=
  if s.localSubroutines.isEmpty then none else some (.ofObjects s.localSubroutines)

/-- The subroutines that the charstrings can call. -/
def subroutineSets : SubroutineSets where
  inAll := ⟨.ofObjects s.globalSubroutines⟩
  inPrivate := s.localIndex?.map Subroutines.mk

/-- The font can be written: its Private DICT states the widths, every charstring decodes, and neither
the objects of an INDEX nor the bytes of the table are too many. -/
structure Writable (w : StatedWidths) : Prop where
  /-- What the Private DICT states. -/
  privateEntries : s.privateEntries = Dict.encode w.entries
  /-- The charstrings. -/
  decodes : ∀ charstring ∈ s.charstrings,
    ∃ list, Charstring.decode s.subroutineSets charstring = .ok list
  /-- The number of strings. -/
  strings : s.strings.length ≤ 65535
  /-- The number of subroutines of all fonts. -/
  globalSubroutines : s.globalSubroutines.length ≤ 65535
  /-- The number of charstrings. -/
  charstrings : s.charstrings.length ≤ 65535
  /-- The number of subroutines of the Private DICT. -/
  localSubroutines : s.localSubroutines.length ≤ 65535
  /-- The length of the table. -/
  short : s.encode.length < 2147483648

/-- Where the subroutines of the Private DICT are, if it has any. -/
def subrs : Option WrittenInteger :=
  if s.localSubroutines.isEmpty then none
  else some (.ofNat (s.privateEntries.length + entryLength))

/-- The Private DICT is that of the widths. -/
theorem privateDict_eq {w : StatedWidths} (h : s.privateEntries = Dict.encode w.entries) :
    s.privateDict = Dict.encode (w.withSubroutines s.subrs) := by
  rw [privateDict, StatedWidths.withSubroutines, subrs, Dict.encode, List.flatMap_append,
    ← Dict.encode, ← Dict.encode, ← h]
  split
  · exact (List.append_nil _).symm
  · show _ = s.privateEntries ++ Dict.encode [entry .subrs [.ofNat _]]
    rw [WrittenInteger.encode_entry]
    simp

/-- The subroutines of the Private DICT come directly after it. -/
theorem length_privateDict (some : s.localSubroutines.isEmpty = false) :
    s.privateDict.length = s.privateEntries.length + entryLength := by
  rw [privateDict, if_neg (Bool.eq_false_iff.mp some), List.append_assoc, List.length_append]
  rfl

/-- The entries of the Top DICT. -/
def topEntries (charstrings priv : Nat) : List (Operator × List (Operand × IntForm)) :=
  [entry .charStrings [.ofNat charstrings],
    entry .privateDict [.ofNat s.privateDict.length, .ofNat priv]]

theorem topDict_eq (charstrings priv : Nat) :
    s.topDict charstrings priv = Dict.encode (s.topEntries charstrings priv) := by
  rw [topEntries, ← List.singleton_append, Dict.encode, List.flatMap_append, ← Dict.encode,
    ← Dict.encode, WrittenInteger.encode_entry, WrittenInteger.encode_entry]
  simp [topDict]

/-- The Top DICT has the same length whatever its offsets are. -/
theorem length_topDict (charstrings priv : Nat) : (s.topDict charstrings priv).length = 17 := by
  have number (n : Nat) : (number n).length = 5 := rfl
  simp only [topDict, List.length_append, number]
  rfl

/-- What comes before the charstrings has the same length whatever the offsets are. -/
theorem length_front (charstrings priv : Nat) :
    (s.front charstrings priv).length = s.charstringsOffset := by
  have top (a b : Nat) : (Index.encodeNarrow [s.topDict a b]).length = 22 := by
    have one : Index.leastWidth [s.topDict a b] = 1 := by
      rw [Index.leastWidth]
      simp [length_topDict]
    rw [Index.encodeNarrow, one, Index.length_encode]
    simp [length_topDict]
  simp only [charstringsOffset, front, List.length_append, top]

theorem encode_eq_append : s.encode = s.front s.charstringsOffset s.privateOffset ++
    (Index.encodeNarrow s.charstrings ++ (s.privateDict ++ s.localIndex)) := by
  simp only [encode, List.append_assoc]

theorem length_encode : s.encode.length = s.charstringsOffset +
    ((Index.encodeNarrow s.charstrings).length + (s.privateDict.length + s.localIndex.length)) := by
  simp only [encode_eq_append, List.length_append, length_front]

/-- What comes before the Private DICT is as long as its offset says. -/
theorem length_append_privateOffset :
    (s.front s.charstringsOffset s.privateOffset ++ Index.encodeNarrow s.charstrings).length =
      s.privateOffset := by
  rw [List.length_append, length_front]
  rfl

/-! ### Reading the parts -/

/-- What is read at a place, in bytes that come after as many as its offset says. -/
theorem readAt_of_append {ε α : Type} {r : ReaderOf ε α} {table before bytes rest : List UInt8}
    {offset : Nat} {value : α} (split : table = before ++ bytes) (place : before.length = offset)
    (h : r bytes = .ok (value, rest)) : FontSet.readAt table offset r = .ok value := by
  subst split place
  rw [FontSet.readAt, List.drop_left, h]
  rfl

/-- The Private DICT that is read at its place is that of its bytes, also if it has none. -/
theorem readPrivateDict_of_append {table before bytes after : List UInt8} {offset : Nat}
    (split : table = before ++ (bytes ++ after)) (place : before.length = offset) :
    FontSet.readPrivateDict table bytes.length offset = Dict.ofBytes .priv bytes := by
  subst split place
  unfold FontSet.readPrivateDict
  by_cases none : bytes = []
  · subst none
    rw [List.length_nil, if_pos rfl, Dict.ofBytes, Dict.tokens]
    rfl
  · have some : bytes.length ≠ 0 := fun zero => none (List.length_eq_zero_iff.mp zero)
    have window : (Scope.ofBytes (before ++ (bytes ++ after))).window before.length bytes.length =
        .ok ⟨before.length, bytes⟩ := by
      rw [Scope.window_eq_ok]
      simp only [Scope.ofBytes, List.drop_left, List.take_left, List.length_append, Nat.zero_add]
      exact ⟨.inl (by omega), by omega, trivial⟩
    rw [if_neg some, window]
    rfl

variable {s} {w : StatedWidths}

/-- The INDEX of a part of the table is read whole. -/
theorem read_part (h : s.Writable w) {objects : List (List UInt8)} (count : objects.length ≤ 65535)
    (part : (Index.encodeNarrow objects).length ≤ s.encode.length) (rest : List UInt8) :
    Index.read (Index.encodeNarrow objects ++ rest) = .ok (.ofObjects objects, rest) := by
  have short := h.short
  have longer := Index.length_flatten_lt_length_encode (Index.leastWidth objects) objects
  rw [← Index.encodeNarrow] at longer
  exact Index.read_encodeNarrow (by omega) (by omega) rest

/-- The Top DICT as it is read. -/
def parsedTop (s : FontSource) : Dict :=
  ⟨.top, (s.topEntries s.charstringsOffset s.privateOffset).map Dict.withoutForms⟩

theorem ofBytes_topDict (s : FontSource) :
    Dict.ofBytes .top (s.topDict s.charstringsOffset s.privateOffset) = .ok s.parsedTop := by
  rw [topDict_eq, Dict.ofBytes_encode, parsedTop]
  intro e h
  simp only [topEntries, List.mem_cons, List.not_mem_nil, or_false] at h
  rcases h with rfl | rfl
  · exact WrittenInteger.writable_entry rfl
  · exact WrittenInteger.writable_entry rfl

theorem int?_parsedTop_charStrings (s : FontSource) :
    s.parsedTop.int? .charStrings = some (.ok (WrittenInteger.ofNat s.charstringsOffset).value) :=
  rfl

theorem get?_parsedTop_privateDict (s : FontSource) : s.parsedTop.get? .privateDict =
    some [.integer (WrittenInteger.ofNat s.privateDict.length).value,
      .integer (WrittenInteger.ofNat s.privateOffset).value] := rfl

theorem readCharstrings_encode (h : s.Writable w) :
    FontSet.readCharstrings s.encode s.parsedTop = .ok (.ofObjects s.charstrings) := by
  have short := h.short
  have length := s.length_encode
  rw [FontSet.readCharstrings, int?_parsedTop_charStrings]
  refine bind_eq_ok.mpr ⟨(WrittenInteger.ofNat s.charstringsOffset).value, rfl, ?_⟩
  refine bind_eq_ok.mpr ⟨_, WrittenInteger.offsetOfInt32_ofNat (by omega), ?_⟩
  exact readAt_of_append s.encode_eq_append (s.length_front _ _)
    (read_part h h.charstrings (by omega) _)

/-- The subroutines of the Private DICT are found after it. -/
theorem readSubroutines_encode (h : s.Writable w) :
    FontSet.readSubroutines s.encode (w.privateDict s.subrs) s.privateOffset =
      .ok s.localIndex? := by
  have short := h.short
  have length := s.length_encode
  rw [FontSet.readSubroutines, w.int?_privateDict_subrs, subrs, localIndex?]
  cases some : s.localSubroutines.isEmpty with
  | true => rfl
  | false =>
    have place := s.length_privateDict some
    have local' : s.localIndex = Index.encodeNarrow s.localSubroutines := by
      rw [localIndex, some]
      rfl
    rw [local'] at length
    have table : s.encode = (s.front s.charstringsOffset s.privateOffset ++
        Index.encodeNarrow s.charstrings ++ s.privateDict) ++
          (Index.encodeNarrow s.localSubroutines ++ []) := by
      rw [encode, local', List.append_nil]
    have before : (s.front s.charstringsOffset s.privateOffset ++
        Index.encodeNarrow s.charstrings ++ s.privateDict).length =
          s.privateOffset + (s.privateEntries.length + entryLength) := by
      rw [List.length_append, length_append_privateOffset, place]
    have found := readAt_of_append table before (read_part h h.localSubroutines (by omega) [])
    refine bind_eq_ok.mpr ⟨_, rfl, bind_eq_ok.mpr ⟨_, WrittenInteger.offsetOfInt32_ofNat ?_, ?_⟩⟩
    · omega
    · rw [found]
      rfl

theorem readFontPrivate_encode (h : s.Writable w) :
    FontSet.readFontPrivate s.encode none s.parsedTop =
      .ok ⟨some (w.privateDict s.subrs), s.localIndex?, w.widths⟩ := by
  have short := h.short
  have length := s.length_encode
  have before := s.length_append_privateOffset
  rw [List.length_append, length_front] at before
  have range : s.parsedTop.privateRange = .ok (some (s.privateDict.length, s.privateOffset)) := by
    rw [Dict.privateRange, get?_parsedTop_privateDict]
    refine bind_eq_ok.mpr ⟨_, WrittenInteger.offsetOfInt32_ofNat (by omega), ?_⟩
    exact bind_eq_ok.mpr ⟨_, WrittenInteger.offsetOfInt32_ofNat (by omega), rfl⟩
  have dict : FontSet.readPrivateDict s.encode s.privateDict.length s.privateOffset =
      .ok (w.privateDict s.subrs) := by
    have table : s.encode = (s.front s.charstringsOffset s.privateOffset ++
        Index.encodeNarrow s.charstrings) ++ (s.privateDict ++ s.localIndex) := by
      rw [encode, List.append_assoc]
    rw [readPrivateDict_of_append table s.length_append_privateOffset,
      s.privateDict_eq h.privateEntries]
    exact Dict.ofBytes_encode (w.writable_of_mem_withSubroutines s.subrs) .priv
  refine bind_eq_ok.mpr ⟨_, range, bind_eq_ok.mpr ⟨_, dict, ?_⟩⟩
  refine bind_eq_ok.mpr ⟨_, readSubroutines_encode h, ?_⟩
  exact bind_eq_ok.mpr ⟨_, w.readWidths_privateDict s.subrs, rfl⟩

/-! ### Glyphs -/

/-- Charstrings that decode make a glyph each. -/
theorem exists_decodeGlyphs_flatten (options : ReadOptions)
    {sources : FontSet.SubroutineSources} {sets : SubroutineSets}
    (known : sources.sets none = .ok sets) {charstrings : List (List UInt8)}
    (decodes : ∀ charstring ∈ charstrings, ∃ list, Charstring.decode sets charstring = .ok list)
    {extents : List Index.Extent} (lengths : extents.map (·.length) = charstrings.map List.length)
    (glyph : Nat) (compactor : Compactor) :
    ∃ list, FontSet.decodeGlyphs sources options glyph charstrings.flatten none compactor extents =
      .ok list ∧ list.length = charstrings.length := by
  induction charstrings generalizing extents glyph compactor with
  | nil =>
    rw [List.map_nil, List.map_eq_nil_iff] at lengths
    subst lengths
    exact ⟨[], rfl, rfl⟩
  | cons charstring charstrings ih =>
    cases extents with
    | nil => cases lengths
    | cons extent extents =>
      obtain ⟨first, others⟩ := List.cons.inj lengths
      obtain ⟨⟨list, decoded⟩, decodes⟩ := List.forall_mem_cons.mp decodes
      let stored : List Instruction × Compactor :=
        if options.compactInstructions then compactor.compact list else (list, compactor)
      obtain ⟨rest, hrest, length⟩ := ih decodes others (glyph + 1) stored.2
      refine ⟨(none, stored.1) :: rest, ?_, by rw [List.length_cons, length, List.length_cons]⟩
      have taken : (liftM (Reader.take extent.length (charstring ++ charstrings.flatten)) :
          Except FontFault _) = .ok (charstring, charstrings.flatten) :=
        lift_eq_ok.mpr (Reader.take_append first.symm)
      refine bind_eq_ok.mpr ⟨_, taken, bind_eq_ok.mpr ⟨(none, none), rfl, ?_⟩⟩
      refine bind_eq_ok.mpr ⟨sets, known, bind_eq_ok.mpr ⟨list, decoded, ?_⟩⟩
      exact bind_eq_ok.mpr ⟨rest, hrest, rfl⟩

/-- Each glyph is made from what its charstring decodes to. -/
theorem getElem?_makeGlyph (strings : Array String) (options : ReadOptions) (charset : Charset)
    {decoded : List (Option UInt8 × List Instruction)} {n i : Nat}
    {made : Option UInt8 × List Instruction} (hmade : decoded[i]? = some made) (within : i < n) :
    ∃ id, ((decoded.zip (charset.glyphIds n)).mapIdx fun glyph (decoded, id) =>
      FontSet.makeGlyph strings false options glyph decoded id).toArray[i]? =
        some (FontSet.makeGlyph strings false options i made id) := by
  obtain ⟨id, hid⟩ : ∃ id, (charset.glyphIds n)[i]? = some id :=
    ⟨_, List.getElem?_eq_getElem (by rw [Charset.length_glyphIds]; exact within)⟩
  have hzip : (decoded.zip (charset.glyphIds n))[i]? = some (made, id) :=
    List.getElem?_zip_eq_some.mpr ⟨hmade, hid⟩
  refine ⟨id, ?_⟩
  rw [List.getElem?_toArray, List.getElem?_mapIdx, hzip]
  rfl

/-- The font is read off the table. -/
theorem exists_readFont_encode (h : s.Writable w) (options : ReadOptions) :
    ∃ font, FontSet.readFont s.encode s.name s.parsedTop s.strings.toArray
        (.ofObjects s.globalSubroutines) options = .ok font ∧
      font.name = s.name ∧ font.priv.widths = w.widths ∧
      font.glyphs.size = s.charstrings.length ∧
      ∀ (i : Nat) charstring, s.charstrings[i]? = some charstring →
        ∃ g, font.glyphs[i]? = some g ∧
          Charstring.decode s.subroutineSets charstring = .ok g.expanded := by
  have count := h.charstrings
  let sources : FontSet.SubroutineSources := ⟨.ofObjects s.globalSubroutines, s.localIndex?, #[]⟩
  have known : sources.sets none = .ok s.subroutineSets := rfl
  obtain ⟨decoded, hdecoded, length⟩ := exists_decodeGlyphs_flatten options known h.decodes
    Index.lengths_extents_ofObjects 0 .new
  have each := FontSet.decodeGlyphs_eq_ok hdecoded
    (by rw [Index.length_extents, Index.count_ofObjects]; omega) (fun _ none => by cases none)
  rw [Index.lengths_extents_ofObjects, Index.consecutive_flatten] at each
  rw [← Index.toList_data_ofObjects] at hdecoded
  refine ⟨_, FontSet.readFont_eq_ok.mpr ⟨_, none, [], _, _, decoded, .isoAdobe, some .standard, rfl,
    rfl, rfl, readFontPrivate_encode h, readCharstrings_encode h, hdecoded, rfl, rfl, rfl⟩, rfl, rfl,
    ?_, ?_⟩
  · simp [length, Charset.length_glyphIds]
  · intro i charstring hi
    obtain ⟨made, hmade, selected, sets, hsets, decodes⟩ := each i charstring hi
    have noDict : made.1 = none := selected
    rw [noDict, known] at hsets
    cases hsets
    have within : i < s.charstrings.length := (List.getElem?_eq_some_iff.mp hi).1
    rw [← Index.count_ofObjects] at within
    obtain ⟨id, made⟩ := getElem?_makeGlyph s.strings.toArray options .isoAdobe hmade within
    exact ⟨_, made, decodes⟩

/-! ### The whole table -/

theorem map_decode_objects (texts : List String) :
    (Index.ofObjects (texts.map Utf8.encode)).objects.map Utf8.decode = texts := by
  rw [Index.objects_ofObjects, List.map_map]
  simp [Function.comp_def, Utf8.decode_encode]

theorem read_major (rest : List UInt8) :
    Cell.uint8.read (header ++ rest) = .ok (1, [0, 4, 4] ++ rest) := Cell.read_uint8 1 _

theorem read_header (rest : List UInt8) :
    Header.read (header ++ rest) = .ok (⟨1, 0, 4, 4⟩, rest) := by
  have nothing : Reader.take ((4 : UInt8) - Header.leastSize).toNat rest = .ok ([], rest) :=
    @Reader.take_append [] rest _ rfl
  rw [Header.read, Reader.bind_of (read_major rest),
    Reader.bind_of (Reader.require_of (by decide) _ _)]
  show (Cell.uint8.read >>= _) (0 :: 4 :: 4 :: rest) = _
  rw [Reader.bind_of (Cell.read_uint8 0 _), Reader.bind_of (Cell.read_uint8 4 _),
    Reader.bind_of (Cell.read_uint8 4 _), Reader.bind_of (Reader.require_of (by decide) _ _),
    Reader.bind_of (Reader.require_of (by decide) _ _), Reader.bind_of nothing]
  rfl

/-- **A font comes back from its table**: its name, its strings, the widths that its Private DICT
states, and a glyph for each charstring, which stands for what the charstring decodes to. -/
theorem exists_fontSet (h : s.Writable w) (options : ReadOptions) :
    ∃ set font, FontSet.read s.encode options = .ok set ∧ set.fonts = [font] ∧
      set.names = [s.name] ∧ font.name = s.name ∧ set.strings = s.strings.toArray ∧
      font.priv.widths = w.widths ∧ font.glyphs.size = s.charstrings.length ∧
      ∀ (i : Nat) charstring, s.charstrings[i]? = some charstring →
        ∃ g, font.glyphs[i]? = some g ∧
          Charstring.decode s.subroutineSets charstring = .ok g.expanded := by
  obtain ⟨font, hfont, name, widths, size, glyphs⟩ := exists_readFont_encode h options
  let rest := Index.encodeNarrow s.charstrings ++ (s.privateDict ++ s.localIndex)
  have table : s.encode = header ++ (Index.encodeNarrow [Utf8.encode s.name] ++
      (Index.encodeNarrow [s.topDict s.charstringsOffset s.privateOffset] ++
        (Index.encodeNarrow (s.strings.map Utf8.encode) ++
          (Index.encodeNarrow s.globalSubroutines ++ rest)))) := by
    simp only [rest, encode, front, List.append_assoc]
  have length := congrArg List.length table
  simp only [List.length_append] at length
  have names := map_decode_objects [s.name]
  have strings := map_decode_objects s.strings
  have oneName : (Index.ofObjects [Utf8.encode s.name]).count = 1 := Index.count_ofObjects _
  have oneTop : (Index.ofObjects [s.topDict s.charstringsOffset s.privateOffset]).count = 1 :=
    Index.count_ofObjects _
  have named : ((Index.ofObjects [Utf8.encode s.name]).objects.map Utf8.decode).headD "" =
      s.name := congrArg (List.headD · "") names
  rw [← named, ← strings, table] at hfont
  have read := FontSet.read_eq_ok.mpr ⟨⟨1, 0, 4, 4⟩, _, _, _, _, _, s.parsedTop, font, _, _, _, _, _,
    rest, read_major _, read_header _, read_part h (by simp) (by omega) _, oneName,
    read_part h (by simp) (by omega) _, oneTop, Index.get?_ofObjects 0, ofBytes_topDict s,
    read_part h (by rw [List.length_map]; exact h.strings) (by omega) _,
    read_part h h.globalSubroutines (by omega) _, hfont, rfl⟩
  rw [← table] at read
  exact ⟨_, font, read, rfl, names, name, congrArg List.toArray strings, widths, size, glyphs⟩

/-- A font of two glyphs, which call a subroutine each: one of all fonts, one of the Private DICT. -/
def callingSource : FontSource where
  name := "A"
  strings := ["é"]
  globalSubroutines := [[14]]
  charstrings := [[32, 29], [32, 10]]
  privateEntries := [251, 192, 21, 189, 20]
  localSubroutines := [[139, 22, 14]]

/-- The widths that its Private DICT states. -/
def callingWidths : StatedWidths where
  default := some ⟨50, .oneByte, by decide⟩
  nominal := some ⟨-300, .twoBytes, by decide⟩
  nominalFirst := true

/-- It comes back, and its glyphs are what the subroutines make of them. -/
theorem exists_fontSet_callingSource :
    callingSource.Writable callingWidths ∧ callingSource.encode.length = 74 ∧
      ∃ set font g, FontSet.read callingSource.encode {} = .ok set ∧ set.fonts = [font] ∧
        set.names = ["A"] ∧ font.name = "A" ∧ set.strings = #["é"] ∧
        font.priv.widths = ⟨50, -300⟩ ∧ font.glyphs.size = 2 ∧
        font.glyphs[1]? = some g ∧
        g.expanded = [.int 0, .plain (.move .hmoveto), .plain .endchar] := by
  have inAll : Charstring.decode callingSource.subroutineSets [32, 29] = .ok [.plain .endchar] :=
    Charstring.decode_of_executes (x := .token (.operand (.int (-107))) [32] (.call [29]
      (.token .endchar [14] .stop) .stop))
      (.go rfl rfl rfl rfl (.callFinish rfl rfl rfl rfl rfl (.stop rfl rfl rfl rfl)))
  have inPrivate : Charstring.decode callingSource.subroutineSets [32, 10] =
      .ok [.int 0, .plain (.move .hmoveto), .plain .endchar] :=
    Charstring.decode_of_executes (x := .token (.operand (.int (-107))) [32] (.call [10]
      (.token (.operand (.int 0)) [139] (.token (.move .hmoveto) [22] (.token .endchar [14] .stop)))
      .stop)) (.go rfl rfl rfl rfl (.callFinish rfl rfl rfl rfl rfl
        (.go rfl rfl rfl rfl (.go rfl rfl rfl rfl (.stop rfl rfl rfl rfl)))))
  have writable : callingSource.Writable callingWidths :=
    { privateEntries := by decide
      decodes := by
        intro charstring h
        simp only [callingSource, List.mem_cons, List.not_mem_nil, or_false] at h
        rcases h with rfl | rfl
        · exact ⟨_, inAll⟩
        · exact ⟨_, inPrivate⟩
      strings := by decide
      globalSubroutines := by decide
      charstrings := by decide
      localSubroutines := by decide
      short := by decide }
  obtain ⟨set, font, hread, fonts, names, name, strings, widths, size, glyphs⟩ :=
    exists_fontSet writable {}
  obtain ⟨g, hg, decoded⟩ := glyphs 1 [32, 10] rfl
  rw [inPrivate] at decoded
  exact ⟨writable, by decide, set, font, g, hread, fonts, names, name, strings, widths, size, hg,
    (Except.ok.inj decoded).symm⟩

end FontSource

end CompactFont
