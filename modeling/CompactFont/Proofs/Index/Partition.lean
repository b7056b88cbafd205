import Mathlib.Algebra.GroupWithZero.Nat
import CompactFont.Proofs.Index

/-!
# How the objects of an INDEX divide its data

An INDEX that was read, and is not empty, is usable in full. Its bytes are just its count, the width of
the offsets, the offsets in that width, and the object data (`bytes_of_read`). The offsets do not
decrease, and the last of them leads to the end of the data, so the objects divide the data from the
first offset on, without a gap and without an overlap (`Partitioned`). None of them is missing when the
objects are listed, so the place of an object in the list is its number.

**`partitioned_of_read`** says so of everything that `read` accepts.
-/

namespace CompactFont.Index

/-- The objects of an INDEX divide its data. -/
structure Partitioned (x : Index) : Prop where
  /-- There is one offset more than there are objects. -/
  size_offsets : x.offsets.size = x.count + 1
  /-- Offsets count from one. -/
  one_le {i first : Nat} : x.offsets[i]? = some first → 1 ≤ first
  /-- They do not decrease. -/
  monotone {i j first last : Nat} : i ≤ j → x.offsets[i]? = some first →
    x.offsets[j]? = some last → first ≤ last
  /-- Every object has a place. -/
  length_places : x.extents.length = x.count
  /-- It can be looked up, and its bytes are those in its place. -/
  found {i : Nat} : i < x.count → ∃ place object, x.extents[i]? = some place ∧
    x.get? i = some object ∧ object = (x.data.toList.drop place.start).take place.length ∧
    object.length = place.length
  /-- It starts where the one before it ends. -/
  adjacent {i : Nat} {place next : Extent} : x.extents[i]? = some place →
    x.extents[i + 1]? = some next → next.start = place.start + place.length
  /-- The last one ends with the data. -/
  ends {place : Extent} : x.extents.getLast? = some place →
    place.start + place.length = x.dataLength
  /-- Together they are as long as the offsets are apart. -/
  lengths {first last : Nat} : x.offsets[0]? = some first → x.offsets[x.count]? = some last →
    (x.extents.map (·.length)).sum = last - first
  /-- All of them are listed. -/
  length_objects : x.objects.length = x.count
  /-- They are listed by their numbers. -/
  getElem?_objects (i : Nat) : x.objects[i]? = x.get? i

/-! ### The bytes of an INDEX -/

/-- The offsets in a table are the table. -/
theorem flatMap_offsetsOf {width n : Nat} {table : List UInt8} (h : table.length = n * width) :
    (read.offsetsOf width n table).flatMap (BigEndian.toBytes width) = table := by
  induction n generalizing table with
  | zero =>
    rw [Nat.zero_mul] at h
    rw [List.length_eq_zero_iff.mp h]
    rfl
  | succ n ih =>
    rw [Nat.succ_mul] at h
    have first : (table.take width).length = width := by
      rw [List.length_take]
      omega
    have others : (table.drop width).length = n * width := by
      rw [List.length_drop]
      omega
    have bytes := BigEndian.toBytes_ofBytes (table.take width)
    rw [first] at bytes
    rw [read.offsetsOf, List.flatMap_cons, ih others, bytes, List.take_append_drop]

/-- What is known of the bytes of an INDEX with objects: the width of the offsets, which bytes these are,
and where the last offset leads. -/
theorem bytes_of_read {bytes rest : List UInt8} {x : Index} (h : read bytes = .ok (x, rest))
    (some : 0 < x.count) :
    ∃ width : UInt8, 1 ≤ width ∧ width ≤ 4 ∧
      bytes = BigEndian.toBytes 2 x.count ++ width ::
        (x.offsets.toList.flatMap (BigEndian.toBytes width.toNat) ++ (x.data.toList ++ rest)) ∧
      x.offsets.size = x.count + 1 ∧ x.offsets[x.count]? = .some (x.dataLength + 1) := by
  obtain ⟨⟨n, afterCount⟩, hcount, h⟩ := bind_eq_ok.mp h
  dsimp only at h
  split at h
  · cases h
    cases some
  · obtain ⟨⟨width, afterWidth⟩, hwidth, h⟩ := bind_eq_ok.mp h
    obtain ⟨⟨_, afterRange⟩, hrange, h⟩ := bind_eq_ok.mp h
    obtain ⟨⟨table, afterTable⟩, htable, h⟩ := bind_eq_ok.mp h
    obtain ⟨⟨_, afterOne⟩, hone, h⟩ := bind_eq_ok.mp h
    obtain ⟨⟨data, afterData⟩, hdata, h⟩ := bind_eq_ok.mp h
    obtain ⟨⟨_, afterPlaces⟩, hplaces, h⟩ := bind_eq_ok.mp h
    cases h
    obtain ⟨range, rfl⟩ := Reader.require_eq_ok hrange
    obtain ⟨one, rfl⟩ := Reader.require_eq_ok hone
    obtain ⟨-, rfl⟩ := Reader.require_eq_ok hplaces
    obtain ⟨rfl, lengthTable⟩ := Reader.append_of_take htable
    obtain ⟨rfl, lengthData⟩ := Reader.append_of_take hdata
    obtain rfl := Cell.read_uint8_eq_ok hwidth
    obtain rfl := Cell.read_uint16_eq_ok hcount
    obtain ⟨low, high⟩ := of_decide_eq_true range
    have positive := of_decide_eq_true one
    have written := flatMap_offsetsOf lengthTable
    have size := length_offsetsOf width.toNat (n.toNat + 1) table
    generalize read.offsetsOf width.toNat (n.toNat + 1) table = offsets
      at positive lengthData written size ⊢
    rw [List.getLastD_eq_getLast?, List.getLast?_eq_getElem?, size, Nat.add_sub_cancel]
      at positive lengthData
    have count : Index.count ⟨offsets.toArray, data.toArray⟩ = n.toNat := by
      rw [Index.count, List.size_toArray, size, Nat.add_sub_cancel]
    refine ⟨width, low, high, ?_, ?_, ?_⟩
    · rw [count, written]
    · rw [count, List.size_toArray, size]
    · have last : offsets[n.toNat]? = .some offsets[n.toNat] := List.getElem?_eq_getElem (by omega)
      rw [last, Option.getD_some] at positive lengthData
      rw [count, List.getElem?_toArray, last, dataLength, List.size_toArray, lengthData,
        Nat.sub_add_cancel positive]

/-! ### Offsets and places -/

/-- The objects together are as long as the first offset and the last one are apart. -/
theorem sum_lengths {offsets : List Nat} {first last : Nat} (ordered : Ordered (first :: offsets))
    (hlast : (first :: offsets)[offsets.length]? = some last) :
    first + (List.zipWith (fun a b => b - a) (first :: offsets) offsets).sum = last := by
  induction offsets generalizing first with
  | nil =>
    cases hlast
    rfl
  | cons next offsets ih =>
    have step : first ≤ next := ordered 0 first next rfl rfl
    have others := ih ordered.tail hlast
    rw [List.zipWith_cons_cons, List.sum_cons]
    omega

section

variable {x : Index}

theorem getElem?_extents {i first last : Nat} (hfirst : x.offsets[i]? = some first)
    (hlast : x.offsets[i + 1]? = some last) : x.extents[i]? = some ⟨first - 1, last - first⟩ := by
  rw [extents, List.getElem?_map, getElem?_bounds hfirst hlast]
  rfl

/-- What holds from one offset to the next holds from any to any after it. -/
theorem Accepted.le_of_le (h : x.Accepted) {i j first last : Nat} (le : i ≤ j)
    (hfirst : x.offsets[i]? = some first) (hlast : x.offsets[j]? = some last) : first ≤ last := by
  induction j generalizing last with
  | zero =>
    obtain rfl : i = 0 := Nat.le_zero.mp le
    rw [hfirst] at hlast
    cases hlast
    exact Nat.le_refl _
  | succ j ih =>
    rcases Nat.lt_or_eq_of_le le with lt | rfl
    · obtain ⟨middle, hmiddle⟩ : ∃ middle, x.offsets[j]? = some middle := by
        have := (Array.getElem?_eq_some_iff.mp hlast).1
        exact ⟨_, Array.getElem?_eq_getElem (by omega)⟩
      calc first ≤ middle := ih (Nat.le_of_lt_succ lt) hmiddle
        _ ≤ last := (h.encloses hmiddle hlast).2.1
    · rw [hfirst] at hlast
      cases hlast
      exact Nat.le_refl _

/-- The objects of an accepted INDEX divide its data, if the last offset leads to its end. -/
theorem Accepted.partitioned (h : x.Accepted) (some : 0 < x.count)
    (size : x.offsets.size = x.count + 1)
    (last : x.offsets[x.count]? = .some (x.dataLength + 1)) : x.Partitioned where
  size_offsets := size
  one_le {i first} hfirst := by
    rcases Nat.lt_or_ge i x.count with lt | ge
    · obtain ⟨_, next, -, hnext⟩ := exists_offsets_of_lt lt
      exact (h.encloses hfirst hnext).1
    · have := (Array.getElem?_eq_some_iff.mp hfirst).1
      obtain rfl : i = x.count := by omega
      rw [last] at hfirst
      cases hfirst
      exact Nat.le_add_left 1 _
  monotone le hfirst hlast := h.le_of_le le hfirst hlast
  length_places := length_extents x
  found {i} hi := by
    obtain ⟨first, next, hfirst, hnext⟩ := exists_offsets_of_lt hi
    obtain ⟨one, le, within⟩ := h.encloses hfirst hnext
    refine ⟨_, _, getElem?_extents hfirst hnext, get?_eq_some h hfirst hnext, rfl, ?_⟩
    rw [List.length_take, List.length_drop, Array.length_toList]
    rw [dataLength] at within
    show min (next - first) (x.data.size - (first - 1)) = next - first
    omega
  adjacent {i place next} hplace hnext := by
    have hi : i + 1 < x.count := by
      rw [← length_extents]
      exact (List.getElem?_eq_some_iff.mp hnext).1
    obtain ⟨a, b, ha, hb⟩ := exists_offsets_of_lt (Nat.lt_of_succ_lt hi)
    obtain ⟨_, c, hb', hc⟩ := exists_offsets_of_lt hi
    rw [hb] at hb'
    cases hb'
    rw [getElem?_extents ha hb] at hplace
    rw [getElem?_extents hb hc] at hnext
    cases hplace
    cases hnext
    obtain ⟨one, le, -⟩ := h.encloses ha hb
    show b - 1 = a - 1 + (b - a)
    omega
  ends {place} hplace := by
    obtain ⟨i, hi⟩ : ∃ i, x.count = i + 1 := ⟨_, (Nat.sub_add_cancel some).symm⟩
    obtain ⟨first, next, hfirst, hnext⟩ : ∃ first next, x.offsets[i]? = .some first ∧
        x.offsets[i + 1]? = .some next := exists_offsets_of_lt (by omega)
    rw [List.getLast?_eq_getElem?, length_extents, hi, Nat.add_sub_cancel,
      getElem?_extents hfirst hnext] at hplace
    rw [hi, hnext] at last
    cases hplace
    obtain ⟨one, le, -⟩ := h.encloses hfirst hnext
    have := Option.some.inj last
    show first - 1 + (next - first) = x.dataLength
    omega
  lengths {first last} hfirst hlast := by
    obtain ⟨origin, offsets, hoffsets, ordered, lengths⟩ := h.exists_offsets some
    have get (j : Nat) : x.offsets[j]? = (origin :: offsets)[j]? := by
      rw [← Array.getElem?_toList, hoffsets]
    have count : x.count = offsets.length := by
      rw [Index.count, ← Array.length_toList, hoffsets, List.length_cons, Nat.add_sub_cancel]
    rw [get] at hfirst hlast
    cases hfirst
    rw [count] at hlast
    have sum := sum_lengths ordered hlast
    rw [lengths]
    omega
  length_objects := length_objects fun _ => h.exists_get?
  getElem?_objects := getElem?_objects fun _ => h.exists_get?

end

/-! ### INDEXes that are read -/

/-- **An INDEX that was read is usable in full**, if it has objects. Its offsets count from one and do
not decrease, and its objects divide the data up to its end: each can be looked up, at the place that
its offsets tell, and is listed by its number. A cursor that reads it moves over the count, the width,
the offsets in this width, and the data, and over no more. -/
theorem partitioned_of_read {bytes rest : List UInt8} {x : Index} (h : read bytes = .ok (x, rest))
    (some : 0 < x.count) :
    x.Partitioned ∧ ∃ width : UInt8, 1 ≤ width ∧ width ≤ 4 ∧
      bytes = BigEndian.toBytes 2 x.count ++ width ::
        (x.offsets.toList.flatMap (BigEndian.toBytes width.toNat) ++ (x.data.toList ++ rest)) ∧
      ∀ base before, Cursor.read ⟨⟨base, before ++ bytes⟩, before.length⟩ read =
        .ok (x, ⟨⟨base, before ++ bytes⟩,
          before.length + (3 + (x.count + 1) * width.toNat + x.dataLength)⟩) := by
  obtain ⟨width, low, high, bytes_eq, size, last⟩ := bytes_of_read h some
  refine ⟨(accepted_of_read h).partitioned some size last, width, low, high, bytes_eq, ?_⟩
  let front := BigEndian.toBytes 2 x.count ++ width ::
    (x.offsets.toList.flatMap (BigEndian.toBytes width.toNat) ++ x.data.toList)
  have front_eq : bytes = front ++ rest := by simp [front, bytes_eq]
  have length : front.length = 3 + (x.count + 1) * width.toNat + x.dataLength := by
    simp only [front, List.length_append, List.length_cons, BigEndian.length_toBytes,
      List.length_flatMap, List.map_const', List.sum_replicate_nat, Array.length_toList, size,
      dataLength]
    omega
  intro base before
  rw [front_eq] at h ⊢
  rw [← length]
  exact Cursor.read_of_append h base before

/-- Three objects, of which the second is empty, after a byte of data that belongs to none of them. -/
theorem partitioned_of_read_gap :
    let bytes : List UInt8 := [0, 3, 2, 0, 2, 0, 4, 0, 4, 0, 5, 9, 10, 20, 30, 7]
    ∃ x, read bytes = .ok (x, [7]) ∧ 0 < x.count ∧ x.Partitioned ∧
      x.extents = [⟨1, 2⟩, ⟨3, 0⟩, ⟨3, 1⟩] ∧ x.objects = [[10, 20], [], [30]] ∧
      Cursor.read ⟨⟨5, bytes⟩, 0⟩ read = .ok (x, ⟨⟨5, bytes⟩, 15⟩) := by
  intro bytes
  have h : read bytes = .ok (⟨#[2, 4, 4, 5], #[9, 10, 20, 30]⟩, [7]) := by rfl
  obtain ⟨divided, width, -, -, bytes_eq, moved⟩ := partitioned_of_read h (by decide)
  have two : width = 2 := by
    have third := congrArg (·[2]?) bytes_eq
    simpa [bytes, BigEndian.toBytes, eq_comm] using third
  subst two
  exact ⟨_, h, by decide, divided, rfl, rfl, moved 5 []⟩

end CompactFont.Index
