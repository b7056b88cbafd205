import CompactFont.Proofs.Font.Glyphs

/-!
# The two lookups of a charset

The SID of a glyph can be looked up (`CustomCharset.id?`), or taken from the list of the SIDs of all
glyphs (`CustomCharset.ids`), as it is when a font is read. The lookup counts all numbers of a run;
the list has only those that are SIDs. So the two part where a run goes past the largest SID: from
there on the list has what the lookup gives to later glyphs (`CustomCharset.read_pastLastSid`). The
last run may go past it, since no SID comes after that run.

Runs are bounded up to a place if no number up to there is past the largest SID, but for the last run
(`RunsBounded`). An induction on the runs gives that the lookups agree on all glyphs up to a given one
just when the runs are bounded up to it (`CustomCharset.agreeOn_upTo_iff`); then the glyph has, in a
font that is read, the SID that is looked up (`FontSet.sid_eq_of_bounded`). **`FontSet.read_charset`**
says both.
-/

namespace CompactFont

open Charstring (Instruction Compactor)

namespace Run

variable {r : Run UInt16 UInt16} {i : Nat}

/-- The numbers of the run up to number `i` are SIDs. -/
def Bounded (i : Nat) (r : Run UInt16 UInt16) : Prop :=
  r.first.toNat + min i r.left.toNat ≤ lastSid

instance : Decidable (r.Bounded i) := inferInstanceAs (Decidable (_ ≤ _))

theorem first_le_lastSid (r : Run UInt16 UInt16) : r.first.toNat ≤ lastSid :=
  Nat.le_of_lt_succ r.first.toNat_lt

/-- As many values as numbers, or as there are SIDs from the first number on. -/
theorem length_values (r : Run UInt16 UInt16) :
    r.values.length = min r.length (lastSid + 1 - r.first.toNat) := by
  have := r.first_le_lastSid
  simp only [values, length, List.length_map, List.length_range']
  omega

theorem values_ne_nil (r : Run UInt16 UInt16) : r.values ≠ [] := by
  have := r.first_le_lastSid
  apply List.ne_nil_of_length_pos
  rw [length_values, length]
  omega

/-- In a run the lookup gives the value at the same place. -/
theorem value?_eq_getElem? (h : i < r.length) : r.value? i = r.values[i]? := by
  have hlength := r.length_values
  by_cases hsid : r.first.toNat + i ≤ lastSid
  · rw [values, List.length_map, List.length_range'] at hlength
    rw [value?, if_pos hsid, values, List.getElem?_map, List.getElem?_range' (by omega),
      Option.map_some, Nat.one_mul]
  · rw [value?, if_neg hsid, List.getElem?_eq_none (by omega)]

theorem Bounded.lt_length_values (h : r.Bounded i) (inside : i < r.length) :
    i < r.values.length := by
  have hlength := r.length_values
  rw [Bounded] at h
  rw [length] at inside hlength
  omega

theorem Bounded.length_values (h : r.Bounded i) (after : r.length ≤ i) :
    r.values.length = r.length := by
  have hlength := Run.length_values r
  rw [Bounded] at h
  rw [length] at after hlength ⊢
  omega

/-- A run that is not bounded has a number, at a place up to the given one, where it has no value. -/
theorem length_values_of_not_bounded (h : ¬r.Bounded i) :
    r.values.length ≤ i ∧ r.values.length < r.length := by
  have hlength := r.length_values
  rw [Bounded] at h
  rw [length] at hlength ⊢
  omega

end Run

namespace CustomCharset

/-! ### Runs -/

/-- The numbers of the runs up to place `i` are SIDs, except that those of the last run need not
be. -/
def RunsBounded (i : Nat) : List (Run UInt16 UInt16) → Prop
  | run :: next :: runs =>
    run.Bounded i ∧ (run.length ≤ i → RunsBounded (i - run.length) (next :: runs))
  | _ => True

variable {i : Nat} {run : Run UInt16 UInt16} {runs : List (Run UInt16 UInt16)}

theorem runsBounded_zero (runs : List (Run UInt16 UInt16)) : RunsBounded 0 runs := by
  match runs with
  | [] | [_] => trivial
  | run :: next :: runs =>
    refine ⟨?_, fun after => absurd after (Nat.not_succ_le_zero _)⟩
    rw [Run.Bounded, Nat.zero_min]
    exact run.first_le_lastSid

theorem RunsBounded.mono {j : Nat} (h : RunsBounded i runs) (le : j ≤ i) : RunsBounded j runs := by
  induction runs generalizing i j with
  | nil => trivial
  | cons run runs ih =>
    cases runs with
    | nil => trivial
    | cons next runs =>
      obtain ⟨bounded, others⟩ := h
      rw [Run.Bounded] at bounded
      refine ⟨by rw [Run.Bounded]; omega, fun after => ?_⟩
      exact ih (others (Nat.le_trans after le)) (Nat.sub_le_sub_right le _)

theorem sidInRuns?_of_lt (h : i < run.length) :
    sidInRuns? i (run :: runs) = run.values[i]? :=
  (if_pos h).trans (Run.value?_eq_getElem? h)

theorem sidInRuns?_of_le (h : run.length ≤ i) :
    sidInRuns? i (run :: runs) = sidInRuns? (i - run.length) runs :=
  if_neg (Nat.not_lt.mpr h)

/-- The lookup in runs that are bounded gives the SID at the same place of the list. -/
theorem sidInRuns?_eq_getElem? (h : RunsBounded i runs) :
    sidInRuns? i runs = (runs.flatMap Run.values)[i]? := by
  induction runs generalizing i with
  | nil => rfl
  | cons run runs ih =>
    rw [List.flatMap_cons]
    cases runs with
    | nil =>
      rw [List.flatMap_nil, List.append_nil]
      by_cases inside : i < run.length
      · exact sidInRuns?_of_lt inside
      · have hlength := run.length_values
        rw [sidInRuns?_of_le (by omega), List.getElem?_eq_none (by omega)]
        rfl
    | cons next runs =>
      obtain ⟨bounded, others⟩ := h
      by_cases inside : i < run.length
      · rw [sidInRuns?_of_lt inside, List.getElem?_append_left (bounded.lt_length_values inside)]
      · have after : run.length ≤ i := Nat.not_lt.mp inside
        rw [sidInRuns?_of_le after, ih (others after), ← bounded.length_values after,
          List.getElem?_append_right (by rw [bounded.length_values after]; exact after)]

/-- Where a run before the last one goes past the largest SID, the lookup gives none, but the list
goes on with the next run. -/
theorem runsBounded_of_forall
    (h : ∀ j ≤ i, sidInRuns? j runs = (runs.flatMap Run.values)[j]?) : RunsBounded i runs := by
  induction runs generalizing i with
  | nil => trivial
  | cons run runs ih =>
    cases runs with
    | nil => trivial
    | cons next runs =>
      have bounded : run.Bounded i := by
        refine Decidable.byContradiction fun unbounded => ?_
        obtain ⟨le, inside⟩ := Run.length_values_of_not_bounded unbounded
        have gap := h _ le
        rw [sidInRuns?_of_lt inside, List.getElem?_eq_none (Nat.le_refl _), List.flatMap_cons,
          List.getElem?_append_right (Nat.le_refl _), Nat.sub_self] at gap
        have ended : (next :: runs).flatMap Run.values = [] :=
          List.eq_nil_of_length_eq_zero (Nat.le_zero.mp (List.getElem?_eq_none_iff.mp gap.symm))
        exact next.values_ne_nil (List.append_eq_nil_iff.mp ended).1
      refine ⟨bounded, fun after => ih fun j hj => ?_⟩
      have same := h (run.length + j) (by omega)
      rw [sidInRuns?_of_le (Nat.le_add_right _ _), Nat.add_sub_cancel_left, List.flatMap_cons,
        ← bounded.length_values after, List.getElem?_append_right (Nat.le_add_right _ _),
        Nat.add_sub_cancel_left] at same
      exact same

/-! ### Reading runs -/

theorem countRuns_zero {Left : Type} (cell : Cell (Run UInt16 Left)) (left : Left → Nat)
    (bytes : List UInt8) : countRuns cell left 0 bytes = .ok 0 := by
  rw [countRuns, if_pos rfl]

/-- A run is counted, then the runs for the glyphs that it leaves. -/
theorem countRuns_cons {Left : Type} {cell : Cell (Run UInt16 Left)} {left : Left → Nat}
    {glyphs count : Nat} {bytes rest : List UInt8} {run : Run UInt16 Left}
    (h : glyphs ≠ 0) (hrun : cell.read bytes = .ok (run, rest))
    (others : countRuns cell left (glyphs - (left run.left + 1)) rest = .ok count) :
    countRuns cell left glyphs bytes = .ok (count + 1) := by
  rw [countRuns, if_neg h]
  exact bind_eq_ok.mpr ⟨_, hrun, bind_eq_ok.mpr ⟨_, others, rfl⟩⟩

theorem read_short {glyphs : Nat} {bytes rest : List UInt8} {runs : List (Run UInt16 UInt8)}
    (h : readRuns Run.short UInt8.toNat glyphs bytes = .ok (runs, rest)) :
    read (glyphs + 1) (1 :: bytes) = .ok (.short runs, rest) :=
  bind_eq_ok.mpr ⟨(runs, rest), lift_eq_ok.mpr h, rfl⟩

/-! ### Custom charsets -/

/-- The runs of the charset are bounded up to a glyph; their first place is that of glyph 1. -/
def Bounded (charset : CustomCharset) (glyph : UInt16) : Prop :=
  match charset with
  | .list _ => True
  | .short runs => RunsBounded (glyph.toNat - 1) (runs.map Run.widen)
  | .long runs => RunsBounded (glyph.toNat - 1) runs

/-- The SID that is looked up for a glyph is the one in the list. -/
def AgreeOn (charset : CustomCharset) (glyph : UInt16) : Prop :=
  charset.id? glyph = charset.ids[glyph.toNat]?

theorem agreeOn_zero (charset : CustomCharset) : charset.AgreeOn 0 := by
  cases charset <;> rfl

/-- A glyph is glyph 0, or has a place in the SIDs of the others. -/
theorem eq_zero_or_place (glyph : UInt16) : glyph = 0 ∨ ∃ i, glyph.toNat = i + 1 := by
  cases hn : glyph.toNat with
  | zero => exact .inl (UInt16.toNat_inj.mp hn)
  | succ i => exact .inr ⟨i, rfl⟩

theorem id?_of_place {glyph : UInt16} (h : glyph.toNat = i + 1) (charset : CustomCharset) :
    charset.id? glyph = match charset with
      | .list sids => sids[i]?
      | .short runs => sidInRuns? i (runs.map Run.widen)
      | .long runs => sidInRuns? i runs := by
  have nonzero : glyph ≠ 0 := by
    rintro rfl
    cases h
  rw [id?, if_neg nonzero, h]
  rfl

theorem agreeOn_list (sids : List UInt16) (glyph : UInt16) : (list sids).AgreeOn glyph := by
  rcases eq_zero_or_place glyph with rfl | ⟨i, hi⟩
  · exact agreeOn_zero _
  · rw [AgreeOn, id?_of_place hi, hi]
    rfl

theorem agreeOn_long {runs : List (Run UInt16 UInt16)} {glyph : UInt16} (h : glyph.toNat = i + 1) :
    (long runs).AgreeOn glyph ↔ sidInRuns? i runs = (runs.flatMap Run.values)[i]? := by
  rw [AgreeOn, id?_of_place h, h]
  rfl

theorem agreeOn_upTo_long (runs : List (Run UInt16 UInt16)) (glyph : UInt16) :
    (∀ g ≤ glyph, (long runs).AgreeOn g) ↔ (long runs).Bounded glyph := by
  simp only [Bounded, UInt16.le_iff_toNat_le]
  constructor
  · intro agree
    rcases eq_zero_or_place glyph with rfl | ⟨last, hlast⟩
    · exact runsBounded_zero runs
    · refine runsBounded_of_forall fun i hi => ?_
      have hplace : (UInt16.ofNat (i + 1)).toNat = i + 1 :=
        UInt16.toNat_ofNat_of_lt' (Nat.lt_of_le_of_lt (by omega) glyph.toNat_lt)
      exact (agreeOn_long hplace).mp (agree _ (by omega))
  · intro bounded g hg
    rcases eq_zero_or_place g with rfl | ⟨i, hi⟩
    · exact agreeOn_zero _
    · exact (agreeOn_long hi).mpr (sidInRuns?_eq_getElem? (bounded.mono (by omega)))

/-- The lookups agree on all glyphs up to a given one just when the runs are bounded up to it. -/
theorem agreeOn_upTo_iff (charset : CustomCharset) (glyph : UInt16) :
    (∀ g ≤ glyph, charset.AgreeOn g) ↔ charset.Bounded glyph := by
  cases charset with
  | list sids => exact iff_of_true (fun g _ => agreeOn_list sids g) trivial
  | short runs => exact agreeOn_upTo_long (runs.map Run.widen) glyph
  | long runs => exact agreeOn_upTo_long runs glyph

/-- A run of which only the first number is a SID. The list goes on with the SID of glyph 3. -/
theorem read_pastLastSid :
    ∃ charset rest, read 4 [1, 255, 255, 1, 0, 10, 0] = .ok (charset, rest) ∧
      ¬charset.AgreeOn 2 := by
  have count : countRuns Run.short UInt8.toNat 3 [255, 255, 1, 0, 10, 0] = .ok 2 :=
    countRuns_cons (by decide) rfl (countRuns_cons (by decide) rfl (countRuns_zero _ _ _))
  have hruns : readRuns Run.short UInt8.toNat 3 [255, 255, 1, 0, 10, 0] =
      .ok ([⟨65535, 1⟩, ⟨10, 0⟩], []) := bind_eq_ok.mpr ⟨2, count, rfl⟩
  refine ⟨_, _, read_short hruns, ?_⟩
  unfold AgreeOn
  decide

end CustomCharset

/-! ### The SIDs of a font -/

namespace Charset

/-- The runs of the charset, if it has runs, are bounded up to a glyph. -/
def Bounded (charset : Charset) (glyph : UInt16) : Prop :=
  match charset with
  | .custom charset => charset.Bounded glyph
  | _ => True

theorem getElem?_padded {α : Type} {n i : Nat} (as : List α) (h : i < n) :
    (padded n as)[i]? = some as[i]? := by
  induction n generalizing i as with
  | zero => cases h
  | succ n ih =>
    cases i with
    | zero => cases as <;> rfl
    | succ i =>
      have inside := Nat.lt_of_succ_lt_succ h
      cases as with
      | nil => exact ih [] inside
      | cons a as => exact ih as inside

/-- Among the SIDs of the first glyphs, that of a glyph is the one that is looked up. -/
theorem getElem?_glyphIds {charset : Charset} {glyph : UInt16} {n : Nat}
    (bounded : charset.Bounded glyph) (h : glyph.toNat < n) :
    (charset.glyphIds n)[glyph.toNat]? = some (charset.id? glyph) := by
  cases charset with
  | custom charset =>
    have agree : charset.AgreeOn glyph :=
      (charset.agreeOn_upTo_iff glyph).mpr bounded glyph UInt16.le_rfl
    rw [glyphIds, getElem?_padded _ h, ← agree]
    rfl
  | _ =>
    simp only [glyphIds, List.getElem?_map, List.getElem?_range h, Option.map_some,
      UInt16.ofNat_toNat]

end Charset

namespace FontSet

/-- A glyph of a font that was read has the SID that its charset is asked for, up to where the runs
are bounded. -/
theorem sid_eq_of_bounded {table : List UInt8} {options : ReadOptions} {set : FontSet}
    (h : read table options = .ok set) {font : Font} (hfont : font ∈ set.fonts) {number : UInt16}
    (bounded : font.charset.Bounded number) {g : Glyph} (hg : font.glyph? number = some g) :
    g.sid = (font.charset.id? number).getD 0 := by
  obtain ⟨name, top, strings, inAll, hread⟩ := exists_readFont h hfont
  obtain ⟨charstrings, decoded, -, -, -, hglyphs⟩ := exists_decodeGlyphs hread
  rw [Font.glyph?, hglyphs, List.getElem?_toArray, List.getElem?_mapIdx] at hg
  obtain ⟨⟨made, id⟩, hzip, rfl⟩ := Option.map_eq_some_iff.mp hg
  obtain ⟨-, hid⟩ := List.getElem?_zip_eq_some.mp hzip
  have inside : number.toNat < charstrings.count := by
    rw [← Charset.length_glyphIds font.charset charstrings.count]
    exact (List.getElem?_eq_some_iff.mp hid).1
  rw [Charset.getElem?_glyphIds bounded inside] at hid
  cases hid
  rfl

/-- **The SID of a glyph.** The two lookups of a charset agree on all glyphs up to the given one just
when its runs are bounded up to that glyph; and then the glyph has, in every font that is read, the
SID that is looked up, or zero if there is none. -/
theorem read_charset (number : UInt16) :
    (∀ charset : CustomCharset, (∀ g ≤ number, charset.AgreeOn g) ↔ charset.Bounded number) ∧
    ∀ table options set, read table options = .ok set → ∀ font ∈ set.fonts,
      font.charset.Bounded number → ∀ g, font.glyph? number = some g →
        g.sid = (font.charset.id? number).getD 0 := by
  constructor
  · exact fun charset => charset.agreeOn_upTo_iff number
  · intro table options set h font hfont bounded g hg
    exact sid_eq_of_bounded h hfont bounded hg

/-- A charstring that ends at once makes a glyph with nothing else in it. -/
theorem decodeGlyphs_endchar (glyph start : Nat) {data : List UInt8} {extents : List Index.Extent}
    {others : List (Option UInt8 × List Instruction)}
    (h : ∀ c, decodeGlyphs ⟨.empty, none, #[]⟩ {} (glyph + 1) data none c extents = .ok others)
    (c : Compactor) : decodeGlyphs ⟨.empty, none, #[]⟩ {} glyph (14 :: data) none c
      (⟨start, 1⟩ :: extents) = .ok ((none, [.plain .endchar]) :: others) := by
  have decodes : Charstring.decode ⟨⟨.empty⟩, none⟩ [14] = .ok [.plain .endchar] := by cbv
  refine bind_eq_ok.mpr ⟨([14], data), rfl, bind_eq_ok.mpr ⟨(none, none), rfl, ?_⟩⟩
  exact bind_eq_ok.mpr ⟨_, rfl, bind_eq_ok.mpr ⟨_, decodes, bind_eq_ok.mpr ⟨_, h _, rfl⟩⟩⟩

/-- Four of them. -/
theorem decodeGlyphs_endchars (c : Compactor) :
    decodeGlyphs ⟨.empty, none, #[]⟩ {} 0 [14, 14, 14, 14] none c
      [⟨0, 1⟩, ⟨1, 1⟩, ⟨2, 1⟩, ⟨3, 1⟩] = .ok (List.replicate 4 (none, [.plain .endchar])) :=
  decodeGlyphs_endchar 0 0 (decodeGlyphs_endchar 1 1 (decodeGlyphs_endchar 2 2
    (decodeGlyphs_endchar 3 3 fun _ => rfl))) c

/-- A table of four glyphs. The last run of its charset goes past the largest SID. -/
def runsTable : List UInt8 :=
  [1, 0, 4, 1, 0, 1, 1, 1, 2, 65, 0, 1, 1, 1, 5, 174, 15, 162, 17, 0, 0, 0, 0,
    0, 4, 1, 1, 2, 3, 4, 5, 14, 14, 14, 14, 1, 0, 34, 0, 255, 255, 1]

theorem read_charset_runsTable :
    ∃ set font charset g g', read runsTable {} = .ok set ∧ font ∈ set.fonts ∧
      font.charset = .custom charset ∧ charset.Bounded 3 ∧ (∀ g ≤ 3, charset.AgreeOn g) ∧
      font.glyph? 2 = some g ∧ g.sid = 65535 ∧ font.glyph? 3 = some g' ∧ g'.sid = 0 := by
  let top : Dict := ⟨.top, [(.charset, [.integer 35]), (.charStrings, [.integer 23])]⟩
  have htop : Dict.ofBytes .top [174, 15, 162, 17] = .ok top := by cbv
  have count : CustomCharset.countRuns Run.short UInt8.toNat 3 [0, 34, 0, 255, 255, 1] = .ok 2 :=
    CustomCharset.countRuns_cons (by decide) rfl
      (CustomCharset.countRuns_cons (by decide) rfl (CustomCharset.countRuns_zero _ _ _))
  have hruns : CustomCharset.readRuns Run.short UInt8.toNat 3 [0, 34, 0, 255, 255, 1] =
      .ok ([⟨34, 0⟩, ⟨65535, 1⟩], []) := bind_eq_ok.mpr ⟨2, count, rfl⟩
  have hcharset : readCharset runsTable top 4 = .ok (.custom (.short [⟨34, 0⟩, ⟨65535, 1⟩])) :=
    bind_eq_ok.mpr ⟨35, rfl, bind_eq_ok.mpr ⟨35, rfl, bind_eq_ok.mpr
      ⟨_, map_eq_ok.mpr ⟨_, CustomCharset.read_short hruns, rfl⟩, rfl⟩⟩⟩
  have bounded : (CustomCharset.short [⟨34, 0⟩, ⟨65535, 1⟩]).Bounded 3 :=
    ⟨by decide, fun _ => trivial⟩
  have hset := read_eq_ok.mpr ⟨⟨1, 0, 4, 1⟩, ⟨#[1, 2], #[65]⟩, ⟨#[1, 5], #[174, 15, 162, 17]⟩,
    .empty, .empty, _, _, _, _, _, _, _, _, _, rfl, rfl, rfl, rfl, rfl, rfl, rfl, htop, rfl, rfl,
    readFont_eq_ok.mpr ⟨_, none, [], ⟨none, none, ⟨0, 0⟩⟩, ⟨#[1, 2, 3, 4, 5], #[14, 14, 14, 14]⟩, _,
      _, some .standard, rfl, rfl, rfl, rfl, rfl, decodeGlyphs_endchars _, hcharset, rfl, rfl⟩, rfl⟩
  have sids (number : UInt16) := (read_charset number).2 runsTable {} _ hset _
    (List.mem_singleton.mpr rfl)
  exact ⟨_, _, _, _, _, hset, List.mem_singleton.mpr rfl, rfl, bounded,
    ((read_charset 3).1 _).mpr bounded, rfl, sids 2 ⟨by decide, fun _ => trivial⟩ _ rfl, rfl,
    sids 3 bounded _ rfl⟩

end FontSet

end CompactFont
