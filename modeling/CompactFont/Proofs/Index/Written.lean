import Mathlib.Algebra.GroupWithZero.Nat
import CompactFont.Proofs.Bytes.Exact
import CompactFont.Proofs.Index

/-!
# INDEXes as they are written

What `encode` writes for some objects is read back as the INDEX that holds just these
(`ofObjects`), whatever the width of the offsets, as long as it has room for the last of them. The
objects lie one after the other in the object data, so that offset number `i` is one more than the
length of the first `i` objects together (`getElem?_offsetsFrom`). Looking an object up, listing all
of them and asking for their places all follow from that.

**`exists_read_encode`** says so of everything that an INDEX can be asked for. Where an empty INDEX
ends, and that empty objects have places too, are no special cases there.
-/

namespace CompactFont

theorem BigEndian.capacity_eq_pow (width : Nat) : capacity width = 256 ^ width := by
  induction width with
  | zero => rfl
  | succ width ih => rw [capacity, ih, Nat.pow_succ, Nat.mul_comm]

namespace Index

/-- The INDEX that holds the given objects. -/
def ofObjects (objects : List (List UInt8)) : Index :=
  if objects.isEmpty then empty
  else ⟨(offsetsFrom 1 objects).toArray, objects.flatten.toArray⟩

/-! ### Offsets of objects that lie one after the other -/

@[simp] theorem length_offsetsFrom (start : Nat) (objects : List (List UInt8)) :
    (offsetsFrom start objects).length = objects.length + 1 := by
  induction objects generalizing start with
  | nil => rfl
  | cons object objects ih => simp [offsetsFrom, ih]

/-- Each offset tells the length of all the objects before it. -/
theorem getElem?_offsetsFrom (start : Nat) {objects : List (List UInt8)} {i : Nat}
    (hi : i ≤ objects.length) :
    (offsetsFrom start objects)[i]? = some (start + (objects.take i).flatten.length) := by
  induction objects generalizing start i with
  | nil =>
    obtain rfl : i = 0 := by simpa using hi
    rfl
  | cons object objects ih =>
    cases i with
    | zero => rfl
    | succ i =>
      rw [offsetsFrom, List.getElem?_cons_succ, ih _ (Nat.le_of_succ_le_succ hi)]
      simp [Nat.add_assoc]

/-- All bytes together, divided by one of the objects. -/
theorem flatten_eq_append {objects : List (List UInt8)} {i : Nat} (hi : i < objects.length) :
    objects.flatten =
      (objects.take i).flatten ++ (objects[i] ++ (objects.drop (i + 1)).flatten) := by
  rw [← List.flatten_cons, ← List.drop_eq_getElem_cons hi, ← List.flatten_append,
    List.take_append_drop]

/-- Fewer objects are not longer. -/
theorem length_flatten_take_le (objects : List (List UInt8)) (i : Nat) :
    (objects.take i).flatten.length ≤ objects.flatten.length := by
  have split : objects.flatten = (objects.take i).flatten ++ (objects.drop i).flatten := by
    rw [← List.flatten_append, List.take_append_drop]
  rw [split, List.length_append]
  exact Nat.le_add_right _ _

theorem length_flatten_take_succ {objects : List (List UInt8)} {i : Nat} (hi : i < objects.length) :
    (objects.take (i + 1)).flatten.length =
      (objects.take i).flatten.length + objects[i].length := by
  rw [List.take_succ_eq_append_getElem hi, List.flatten_append, List.length_append]
  simp only [List.flatten_cons, List.flatten_nil, List.append_nil]

theorem le_of_mem_offsetsFrom {start offset : Nat} {objects : List (List UInt8)}
    (h : offset ∈ offsetsFrom start objects) : offset ≤ start + objects.flatten.length := by
  obtain ⟨i, hi⟩ := List.mem_iff_getElem?.mp h
  have bound : i ≤ objects.length := by
    have := (List.getElem?_eq_some_iff.mp hi).1
    simp at this
    omega
  rw [getElem?_offsetsFrom start bound] at hi
  cases hi
  have := length_flatten_take_le objects i
  omega

theorem getLastD_offsetsFrom (start : Nat) (objects : List (List UInt8)) :
    (offsetsFrom start objects).getLastD 0 = start + objects.flatten.length := by
  rw [List.getLastD_eq_getLast?, List.getLast?_eq_getElem?, length_offsetsFrom, Nat.add_sub_cancel,
    getElem?_offsetsFrom start (Nat.le_refl _), List.take_length, Option.getD_some]

/-- A table of offsets is read back, if the width has room for all of them. -/
theorem offsetsOf_flatMap {width : Nat} {offsets : List Nat}
    (room : ∀ offset ∈ offsets, offset < BigEndian.capacity width) :
    read.offsetsOf width offsets.length (offsets.flatMap (BigEndian.toBytes width)) = offsets := by
  induction offsets with
  | nil => rfl
  | cons offset offsets ih =>
    obtain ⟨first, others⟩ := List.forall_mem_cons.mp room
    have width_eq := BigEndian.length_toBytes width offset
    rw [List.length_cons, read.offsetsOf, List.flatMap_cons, List.take_left' width_eq,
      List.drop_left' width_eq, BigEndian.ofBytes_toBytes_of_lt first, ih others]

/-! ### What the INDEX holds -/

section

variable (objects : List (List UInt8))

@[simp] theorem count_ofObjects : (ofObjects objects).count = objects.length := by
  cases objects <;> simp [ofObjects, count, empty]

theorem toList_data_ofObjects : (ofObjects objects).data.toList = objects.flatten := by
  cases objects <;> simp [ofObjects, empty]

variable {objects} {i : Nat}

/-- The offsets before and after an object. -/
theorem getElem?_offsets_ofObjects (hi : i < objects.length) :
    (ofObjects objects).offsets[i]? = some (1 + (objects.take i).flatten.length) ∧
      (ofObjects objects).offsets[i + 1]? =
        some (1 + (objects.take i).flatten.length + objects[i].length) := by
  have some : objects.isEmpty = false := by
    cases objects with
    | nil => cases hi
    | cons object objects => rfl
  simp only [ofObjects, some, Bool.false_eq_true, if_false, List.getElem?_toArray]
  rw [getElem?_offsetsFrom 1 (Nat.le_of_lt hi), getElem?_offsetsFrom 1 hi,
    length_flatten_take_succ hi, Nat.add_assoc]
  exact ⟨rfl, rfl⟩

/-- After the offset of the end there is no other. -/
theorem getElem?_offsets_ofObjects_eq_none (hi : objects.length ≤ i) :
    (ofObjects objects).offsets[i + 1]? = none := by
  cases objects with
  | nil => rfl
  | cons object objects =>
    rw [ofObjects, if_neg (by simp)]
    simp at hi ⊢
    omega

/-- The bytes between the offsets of an object are its bytes. -/
theorem take_drop_flatten (hi : i < objects.length) :
    (objects.flatten.drop (objects.take i).flatten.length).take objects[i].length = objects[i] := by
  rw [flatten_eq_append hi, List.drop_left, List.take_left]

/-- Every object can be looked up by its number, and there are no others. -/
theorem get?_ofObjects (i : Nat) : (ofObjects objects).get? i = objects[i]? := by
  by_cases hi : i < objects.length
  · obtain ⟨first, last⟩ := getElem?_offsets_ofObjects hi
    have within : (objects.take i).flatten.length + objects[i].length ≤ objects.flatten.length := by
      rw [← length_flatten_take_succ hi]
      exact length_flatten_take_le objects (i + 1)
    have size : (ofObjects objects).data.size = objects.flatten.length := by
      rw [← Array.length_toList, toList_data_ofObjects]
    have bytes : ((ofObjects objects).data.extract (1 + (objects.take i).flatten.length - 1)
        (1 + (objects.take i).flatten.length + objects[i].length - 1)).toList = objects[i] := by
      rw [Array.toList_extract, List.extract_eq_take_drop, toList_data_ofObjects,
        Nat.add_sub_cancel_left, Nat.add_assoc, Nat.add_sub_cancel_left, Nat.add_sub_cancel_left,
        take_drop_flatten hi]
    rw [get?, first, last, List.getElem?_eq_getElem hi]
    show (guard _ : Option Unit).bind (fun _ => some _) = _
    rw [guard_of ⟨by omega, by omega, by omega⟩, bytes]
    rfl
  · have none := getElem?_offsets_ofObjects_eq_none (Nat.le_of_not_lt hi)
    rw [get?, none, List.getElem?_eq_none (Nat.le_of_not_lt hi)]
    cases (ofObjects objects).offsets[i]? <;> rfl

/-- The objects that are listed are all of them. -/
theorem objects_ofObjects : (ofObjects objects).objects = objects := by
  apply List.ext_getElem?
  intro i
  rw [getElem?_objects, get?_ofObjects]
  intro i hi
  rw [count_ofObjects] at hi
  exact ⟨objects[i], by rw [get?_ofObjects, List.getElem?_eq_getElem hi]⟩

/-- Every object has its place after the objects before it. -/
theorem getElem?_extents_ofObjects (i : Nat) : (ofObjects objects).extents[i]? =
    objects[i]?.map fun object => ⟨(objects.take i).flatten.length, object.length⟩ := by
  by_cases hi : i < objects.length
  · obtain ⟨first, last⟩ := getElem?_offsets_ofObjects hi
    rw [extents, List.getElem?_map, getElem?_bounds first last, List.getElem?_eq_getElem hi]
    simp
  · have none : (ofObjects objects).extents.length ≤ i := by
      rw [length_extents, count_ofObjects]
      exact Nat.le_of_not_lt hi
    rw [List.getElem?_eq_none none, List.getElem?_eq_none (Nat.le_of_not_lt hi)]
    rfl

/-- The lengths that the places tell are those of the objects. -/
theorem lengths_extents_ofObjects :
    (ofObjects objects).extents.map (·.length) = objects.map List.length := by
  apply List.ext_getElem?
  intro i
  rw [List.getElem?_map, getElem?_extents_ofObjects, List.getElem?_map, Option.map_map]
  rfl

/-- Objects taken off all their bytes by their lengths are the objects. -/
theorem consecutive_flatten (objects : List (List UInt8)) :
    consecutive objects.flatten (objects.map List.length) = objects := by
  induction objects with
  | nil => rfl
  | cons object objects ih =>
    rw [List.flatten_cons, List.map_cons, consecutive, List.take_left, List.drop_left, ih]

theorem encloses_of_mem_bounds {offsets : Nat × Nat} (h : offsets ∈ (ofObjects objects).bounds) :
    Encloses (ofObjects objects).dataLength offsets.1 offsets.2 := by
  obtain ⟨i, hi⟩ := List.mem_iff_getElem?.mp h
  have bound : i < objects.length := by
    have := (List.getElem?_eq_some_iff.mp hi).1
    rwa [length_bounds, count_ofObjects] at this
  obtain ⟨first, last⟩ := getElem?_offsets_ofObjects bound
  rw [getElem?_bounds first last] at hi
  cases hi
  have within := length_flatten_take_le objects (i + 1)
  rw [length_flatten_take_succ bound] at within
  have size : (ofObjects objects).dataLength = objects.flatten.length := by
    rw [dataLength, ← Array.length_toList, toList_data_ofObjects]
  rw [size]
  exact ⟨by omega, by omega, by omega⟩

end

/-! ### Reading what was written -/

/-- The number of objects in front of an INDEX. -/
theorem read_count {n : Nat} (h : n < 65536) (rest : List UInt8) :
    Cell.uint16.read (BigEndian.toBytes 2 n ++ rest) = .ok (UInt16.ofNat n, rest) := by
  have written : Cell.uint16.encode (UInt16.ofNat n) = BigEndian.toBytes 2 n := by
    show BigEndian.toBytes 2 (UInt16.ofNat n).toNat = _
    rw [UInt16.toNat_ofNat_of_lt' h]
  rw [← written, Cell.read_encode]

/-- What is written for objects is read as the INDEX that holds them, with what comes after left. -/
theorem read_encode_ofObjects {width : Nat} {objects : List (List UInt8)}
    (count : objects.length < 65536) (one : 1 ≤ width) (four : width ≤ 4)
    (room : objects.flatten.length + 1 < BigEndian.capacity width) (rest : List UInt8) :
    read (encode width objects ++ rest) = .ok (ofObjects objects, rest) := by
  unfold read
  by_cases none : objects = []
  · subst none
    rfl
  have some : objects.isEmpty = false := by simpa using none
  have toNat_count : (UInt16.ofNat objects.length).toNat = objects.length :=
    UInt16.toNat_ofNat_of_lt' count
  have toNat_width : (UInt8.ofNat width).toNat = width :=
    UInt8.toNat_ofNat_of_lt' (by show width < 256; omega)
  have notZero : UInt16.ofNat objects.length ≠ 0 := by
    intro zero
    rw [zero] at toNat_count
    exact none (List.length_eq_zero_iff.mp toNat_count.symm)
  have size : decide (1 ≤ UInt8.ofNat width ∧ UInt8.ofNat width ≤ 4) = true := by
    rw [decide_eq_true_eq, UInt8.le_iff_toNat_le, UInt8.le_iff_toNat_le, toNat_width]
    exact ⟨one, four⟩
  let table := (offsetsFrom 1 objects).flatMap (BigEndian.toBytes width)
  have length_table : table.length = (objects.length + 1) * width := by
    simp only [table, List.length_flatMap, BigEndian.length_toBytes, List.map_const',
      List.sum_replicate_nat, length_offsetsFrom]
  have offsets : read.offsetsOf width (objects.length + 1) table = offsetsFrom 1 objects := by
    rw [← length_offsetsFrom 1]
    apply offsetsOf_flatMap
    intro offset h
    have := le_of_mem_offsetsFrom h
    omega
  have holds : ofObjects objects = ⟨(offsetsFrom 1 objects).toArray, objects.flatten.toArray⟩ := by
    rw [ofObjects, some]
    rfl
  have bytes : encode width objects ++ rest = BigEndian.toBytes 2 objects.length ++
      UInt8.ofNat width :: (table ++ (objects.flatten ++ rest)) := by
    simp [encode, some, table]
  rw [bytes, Reader.bind_of (read_count count _), if_neg notZero,
    Reader.bind_of (Cell.read_uint8 _ _), Reader.bind_of (Reader.require_of size _ _), toNat_count,
    toNat_width, Reader.bind_of (Reader.take_append length_table), offsets, getLastD_offsetsFrom,
    Reader.bind_of (Reader.require_of (by simp) _ _), Nat.add_sub_cancel_left,
    Reader.bind_of (Reader.take_append rfl), ← holds]
  refine (Reader.bind_of (Reader.require_of ?enclosed _ _) _).trans rfl
  rw [List.all_eq_true]
  intro offsets h
  exact decide_eq_true (encloses_of_mem_bounds h)

/-! ### The narrowest offsets -/

theorem length_encode (width : Nat) (objects : List (List UInt8)) :
    (encode width objects).length = 2 + if objects.isEmpty then 0
      else 1 + (objects.length + 1) * width + objects.flatten.length := by
  unfold encode
  split
  · simp
  · simp only [List.length_append, List.length_cons, BigEndian.length_toBytes, List.length_flatMap,
      List.map_const', List.sum_replicate_nat, length_offsetsFrom]
    omega

/-- The objects take no more bytes than the INDEX of them. -/
theorem length_flatten_lt_length_encode (width : Nat) (objects : List (List UInt8)) :
    objects.flatten.length + 1 < (encode width objects).length := by
  rw [length_encode]
  cases objects with
  | nil => simp
  | cons object objects =>
    simp only [List.isEmpty_cons, Bool.false_eq_true, if_false]
    omega

/-- The least width has room for the last offset, and is a width. -/
theorem leastWidth_spec {objects : List (List UInt8)}
    (short : objects.flatten.length + 1 < 4294967296) :
    1 ≤ leastWidth objects ∧ leastWidth objects ≤ 4 ∧
      objects.flatten.length + 1 < BigEndian.capacity (leastWidth objects) := by
  unfold leastWidth
  dsimp only
  split
  · exact ⟨by decide, by decide, by assumption⟩
  split
  · exact ⟨by decide, by decide, by assumption⟩
  split
  · exact ⟨by decide, by decide, by assumption⟩
  · exact ⟨by decide, by decide, short⟩

/-- What is written with the narrowest offsets is read as the INDEX that holds the objects. -/
theorem read_encodeNarrow {objects : List (List UInt8)} (count : objects.length < 65536)
    (short : objects.flatten.length + 1 < 4294967296) (rest : List UInt8) :
    read (encodeNarrow objects ++ rest) = .ok (ofObjects objects, rest) := by
  obtain ⟨one, four, room⟩ := leastWidth_spec short
  exact read_encode_ofObjects count one four room rest

/-! ### Everything an INDEX is asked for -/

/-- **What is written for objects is an INDEX of just these.** With offsets of any width that has
room for the last of them, the INDEX that is read has as many objects, finds each of them by its
number and no other, lists them in order, and tells their places one after the other. A cursor that
reads it moves from its first byte to the first byte after it. -/
theorem exists_read_encode {width : Nat} {objects : List (List UInt8)}
    (count : objects.length ≤ 65535) (one : 1 ≤ width) (four : width ≤ 4)
    (room : objects.flatten.length + 1 < 256 ^ width) (rest : List UInt8) :
    ∃ x, read (encode width objects ++ rest) = .ok (x, rest) ∧
      (∀ base before,
        Cursor.read ⟨⟨base, before ++ (encode width objects ++ rest)⟩, before.length⟩ read =
          .ok (x, ⟨⟨base, before ++ (encode width objects ++ rest)⟩,
            before.length + (encode width objects).length⟩)) ∧
      x.count = objects.length ∧ (∀ i, x.get? i = objects[i]?) ∧ x.objects = objects ∧
      ∀ i, x.extents[i]? =
        objects[i]?.map fun object =>
          (⟨(objects.take i).flatten.length, object.length⟩ : Extent) := by
  rw [← BigEndian.capacity_eq_pow] at room
  have h := read_encode_ofObjects (by omega) one four room rest
  exact ⟨ofObjects objects, h, Cursor.read_of_append h, count_ofObjects objects, get?_ofObjects,
    objects_ofObjects, getElem?_extents_ofObjects⟩

/-- Three objects, of which the second is empty, with offsets of two bytes. -/
theorem exists_read_encode_emptyObject :
    let bytes : List UInt8 := [0, 3, 2, 0, 1, 0, 3, 0, 3, 0, 4, 10, 20, 30]
    encode 2 [[10, 20], [], [30]] = bytes ∧
      ∃ x, read (bytes ++ [99, 98]) = .ok (x, [99, 98]) ∧
        Cursor.read ⟨⟨0, [7] ++ (bytes ++ [99, 98])⟩, 1⟩ read =
          .ok (x, ⟨⟨0, [7] ++ (bytes ++ [99, 98])⟩, 15⟩) ∧
        x.get? 1 = some [] ∧ x.get? 2 = some [30] ∧ x.get? 3 = none ∧
        x.extents[1]? = some ⟨2, 0⟩ := by
  intro bytes
  have written : encode 2 [[10, 20], [], [30]] = bytes := by decide
  obtain ⟨x, hread, moved, -, found, -, places⟩ := @exists_read_encode 2 [[10, 20], [], [30]]
    (by decide) (by decide) (by decide) (by decide) [99, 98]
  rw [written] at hread moved
  exact ⟨written, x, hread, moved 0 [7], found 1, found 2, found 3, places 1⟩

end Index

end CompactFont
