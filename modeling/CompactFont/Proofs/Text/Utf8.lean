import CompactFont.Text.Utf8

/-!
# Text comes back from UTF-8

What is written for a character starts with a byte whose shape is that of the character, and goes on
with bytes that this shape lets follow (`Continuing`). So the character is decoded from just these
bytes, whatever comes after them (`decodeChars_utf8EncodeChar`), and every text comes back from its
bytes (`decode_encode`). There are no bytes to be replaced in them.

The bytes of a character hold its number in base 64. The ranges for second bytes come from there: they
are narrower where the first byte would leave room for a number that takes fewer bytes, for a
surrogate, or for a number past the last character.
-/

namespace CompactFont.Utf8

/-! ### Bytes that belong together -/

/-- Bytes that can follow the first one of a character: the next is in the range, those after it
continue. -/
inductive Continuing : (low high : UInt8) → List UInt8 → Prop where
  /-- There are no more. -/
  | nil {low high : UInt8} : Continuing low high []
  /-- One that is in the range. -/
  | cons {low high b : UInt8} {more : List UInt8} (above : low ≤ b) (below : b ≤ high)
      (next : Continuing 0x80 0xbf more) : Continuing low high (b :: more)

theorem Continuing.countContinuing {low high : UInt8} {more : List UInt8}
    (h : Continuing low high more) (rest : List UInt8) :
    countContinuing low high more.length (more ++ rest) = more.length := by
  induction h with
  | nil => cases rest <;> rfl
  | cons above below next ih =>
    rw [List.length_cons, List.cons_append, Utf8.countContinuing, if_pos ⟨above, below⟩, ih]

/-- A character is decoded from its bytes, with what comes after them left. -/
theorem decodeChars_cons {b low high : UInt8} {more : List UInt8}
    (start : shape b = (more.length + 1, low, high)) (continuing : Continuing low high more)
    (rest : List UInt8) :
    decodeChars (b :: (more ++ rest)) =
      scalar (leadBits (more.length + 1) b) more :: decodeChars rest := by
  rw [decodeChars, start]
  simp only [Nat.add_sub_cancel, continuing.countContinuing rest, if_true, List.take_left,
    List.drop_left]

/-! ### Bytes in base 64 -/

/-- A byte after the first one holds a digit in base 64. -/
theorem toNat_continuing (n : Nat) : (UInt8.ofNat (n % 64 + 128)).toNat = n % 64 + 128 :=
  UInt8.toNat_ofNat_of_lt' (by show _ < 256; omega)

/-- A byte whose digit is in the range, and others that continue. -/
theorem continuing_cons {low high : UInt8} {n : Nat} {more : List UInt8}
    (above : low.toNat ≤ n % 64 + 128) (below : n % 64 + 128 ≤ high.toNat)
    (next : Continuing 0x80 0xbf more) :
    Continuing low high (UInt8.ofNat (n % 64 + 128) :: more) := by
  rw [← toNat_continuing n, ← UInt8.le_iff_toNat_le] at above below
  exact .cons above below next

/-- A byte can hold any digit if it is in no narrower range. -/
theorem continuing_cons_of_any (n : Nat) {more : List UInt8} (next : Continuing 0x80 0xbf more) :
    Continuing 0x80 0xbf (UInt8.ofNat (n % 64 + 128) :: more) := by
  apply continuing_cons _ _ next
  · simp
  · show n % 64 + 128 ≤ 191
    omega

/-- The shape for each first byte, by the number of the byte. -/
theorem shape_ofNat {n : Nat} (h : n < 256) :
    shape (UInt8.ofNat n) =
      if n < 128 then (1, 0x80, 0xbf)
      else if n < 194 then (0, 0x80, 0xbf)
      else if n < 224 then (2, 0x80, 0xbf)
      else if n = 224 then (3, 0xa0, 0xbf)
      else if n = 237 then (3, 0x80, 0x9f)
      else if n < 240 then (3, 0x80, 0xbf)
      else if n = 240 then (4, 0x90, 0xbf)
      else if n < 244 then (4, 0x80, 0xbf)
      else if n = 244 then (4, 0x80, 0x8f)
      else (0, 0x80, 0xbf) := by
  have value : (UInt8.ofNat n).toNat = n := UInt8.toNat_ofNat_of_lt' h
  simp only [shape, UInt8.lt_iff_toNat_lt, ← UInt8.toNat_inj, value, UInt8.reduceToNat]

/-! ### Characters of each length -/

section

variable {n : Nat} (rest : List UInt8)

theorem decodeChars_oneByte (high : n < 128) :
    decodeChars ([UInt8.ofNat n] ++ rest) = Char.ofNat n :: decodeChars rest := by
  have start : shape (UInt8.ofNat n) = (1, 0x80, 0xbf) := by
    rw [shape_ofNat (by omega), if_pos high]
  have value : (UInt8.ofNat n).toNat = n := UInt8.toNat_ofNat_of_lt' (by show n < 256; omega)
  refine (@decodeChars_cons _ _ _ [] start .nil rest).trans ?_
  show Char.ofNat (UInt8.ofNat n).toNat :: _ = _
  rw [value]

theorem decodeChars_twoBytes (low : 128 ≤ n) (high : n < 2048) :
    decodeChars ([UInt8.ofNat (n / 64 % 32 + 192), UInt8.ofNat (n % 64 + 128)] ++ rest) =
      Char.ofNat n :: decodeChars rest := by
  have start : shape (UInt8.ofNat (n / 64 % 32 + 192)) = (2, 0x80, 0xbf) := by
    rw [shape_ofNat (by omega), if_neg (by omega), if_neg (by omega), if_pos (by omega)]
  have value : (UInt8.ofNat (n / 64 % 32 + 192)).toNat = n / 64 % 32 + 192 :=
    UInt8.toNat_ofNat_of_lt' (by show _ < 256; omega)
  refine (decodeChars_cons start (continuing_cons_of_any n .nil) rest).trans ?_
  have number : scalar (leadBits 2 (UInt8.ofNat (n / 64 % 32 + 192)))
      [UInt8.ofNat (n % 64 + 128)] = Char.ofNat n := by
    simp only [scalar, leadBits, List.foldl_cons, List.foldl_nil, toNat_continuing, value]
    congr 1
    omega
  exact congrArg (· :: decodeChars rest) number

/-- The second of three bytes is in the range for it: the number takes three bytes, and is no
surrogate. -/
theorem shape_threeBytes (low : 2048 ≤ n) (high : n < 65536)
    (noSurrogate : n < 55296 ∨ 57343 < n) :
    ∃ least most, shape (UInt8.ofNat (n / 4096 % 16 + 224)) = (3, least, most) ∧
      least.toNat ≤ n / 64 % 64 + 128 ∧ n / 64 % 64 + 128 ≤ most.toNat := by
  rw [shape_ofNat (by omega), if_neg (by omega), if_neg (by omega), if_neg (by omega)]
  by_cases first : n / 4096 = 0
  · rw [if_pos (by omega)]
    exact ⟨0xa0, 0xbf, rfl, by simp; omega, by simp; omega⟩
  · rw [if_neg (by omega)]
    by_cases surrogates : n / 4096 = 13
    · rw [if_pos (by omega)]
      exact ⟨0x80, 0x9f, rfl, by simp, by simp; omega⟩
    · rw [if_neg (by omega), if_pos (by omega)]
      exact ⟨0x80, 0xbf, rfl, by simp, by simp; omega⟩

theorem decodeChars_threeBytes (low : 2048 ≤ n) (high : n < 65536)
    (noSurrogate : n < 55296 ∨ 57343 < n) :
    decodeChars ([UInt8.ofNat (n / 4096 % 16 + 224), UInt8.ofNat (n / 64 % 64 + 128),
      UInt8.ofNat (n % 64 + 128)] ++ rest) = Char.ofNat n :: decodeChars rest := by
  obtain ⟨least, most, start, above, below⟩ := shape_threeBytes low high noSurrogate
  have value : (UInt8.ofNat (n / 4096 % 16 + 224)).toNat = n / 4096 % 16 + 224 :=
    UInt8.toNat_ofNat_of_lt' (by show _ < 256; omega)
  refine (decodeChars_cons start
    (continuing_cons above below (continuing_cons_of_any n .nil)) rest).trans ?_
  have number : scalar (leadBits 3 (UInt8.ofNat (n / 4096 % 16 + 224)))
      [UInt8.ofNat (n / 64 % 64 + 128), UInt8.ofNat (n % 64 + 128)] = Char.ofNat n := by
    simp only [scalar, leadBits, List.foldl_cons, List.foldl_nil, toNat_continuing, value]
    congr 1
    omega
  exact congrArg (· :: decodeChars rest) number

/-- The second of four bytes is in the range for it: the number takes four bytes, and is that of a
character. -/
theorem shape_fourBytes (low : 65536 ≤ n) (high : n < 1114112) :
    ∃ least most, shape (UInt8.ofNat (n / 262144 % 8 + 240)) = (4, least, most) ∧
      least.toNat ≤ n / 4096 % 64 + 128 ∧ n / 4096 % 64 + 128 ≤ most.toNat := by
  rw [shape_ofNat (by omega), if_neg (by omega), if_neg (by omega), if_neg (by omega),
    if_neg (by omega), if_neg (by omega), if_neg (by omega)]
  by_cases first : n / 262144 = 0
  · rw [if_pos (by omega)]
    exact ⟨0x90, 0xbf, rfl, by simp; omega, by simp; omega⟩
  · rw [if_neg (by omega)]
    by_cases last : n / 262144 = 4
    · rw [if_neg (by omega), if_pos (by omega)]
      exact ⟨0x80, 0x8f, rfl, by simp, by simp; omega⟩
    · rw [if_pos (by omega)]
      exact ⟨0x80, 0xbf, rfl, by simp, by simp; omega⟩

theorem decodeChars_fourBytes (low : 65536 ≤ n) (high : n < 1114112) :
    decodeChars ([UInt8.ofNat (n / 262144 % 8 + 240), UInt8.ofNat (n / 4096 % 64 + 128),
      UInt8.ofNat (n / 64 % 64 + 128), UInt8.ofNat (n % 64 + 128)] ++ rest) =
        Char.ofNat n :: decodeChars rest := by
  obtain ⟨least, most, start, above, below⟩ := shape_fourBytes low high
  have value : (UInt8.ofNat (n / 262144 % 8 + 240)).toNat = n / 262144 % 8 + 240 :=
    UInt8.toNat_ofNat_of_lt' (by show _ < 256; omega)
  refine (decodeChars_cons start (continuing_cons above below
    (continuing_cons_of_any (n / 64) (continuing_cons_of_any n .nil))) rest).trans ?_
  have number : scalar (leadBits 4 (UInt8.ofNat (n / 262144 % 8 + 240)))
      [UInt8.ofNat (n / 4096 % 64 + 128), UInt8.ofNat (n / 64 % 64 + 128),
        UInt8.ofNat (n % 64 + 128)] = Char.ofNat n := by
    simp only [scalar, leadBits, List.foldl_cons, List.foldl_nil, toNat_continuing, value]
    congr 1
    omega
  exact congrArg (· :: decodeChars rest) number

end

/-! ### Texts -/

/-- **A character is decoded from its bytes.** -/
theorem decodeChars_utf8EncodeChar (c : Char) (rest : List UInt8) :
    decodeChars (String.utf8EncodeChar c ++ rest) = c :: decodeChars rest := by
  have valid : c.val.toNat < 55296 ∨ 57343 < c.val.toNat ∧ c.val.toNat < 1114112 := c.valid
  have same : Char.ofNat c.val.toNat = c := Char.ofNat_toNat c
  simp only [String.utf8EncodeChar]
  generalize c.val.toNat = n at valid same
  rw [← same]
  split
  · exact decodeChars_oneByte rest (by omega)
  split
  · exact decodeChars_twoBytes rest (by omega) (by omega)
  split
  · exact decodeChars_threeBytes rest (by omega) (by omega) (by omega)
  · exact decodeChars_fourBytes rest (by omega) (by omega)

/-- **A text comes back from its bytes.** -/
theorem decode_encode (text : String) : decode (encode text) = text := by
  have chars (list : List Char) : decodeChars (list.flatMap String.utf8EncodeChar) = list := by
    induction list with
    | nil => rw [List.flatMap_nil, decodeChars]
    | cons c list ih => rw [List.flatMap_cons, decodeChars_utf8EncodeChar, ih]
  rw [decode, encode, chars, String.ofList_toList]

end CompactFont.Utf8
