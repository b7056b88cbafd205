import CompactFont.Index
import CompactFont.Proofs.Bytes.Exact

/-!
# Objects of an accepted INDEX

The offsets of an accepted INDEX do not decrease and stay within the object data
(`Index.Accepted`, `accepted_of_read`).

Objects can also be taken off the object data one after the other, each with the length that its
offsets give it (`consecutive`). As offsets do not decrease, this finds an object as far after the
start of the data as its offset is after the first one (`inSequence?`); it is the place that the
offsets tell if the first of them is 1, as it should be (`inSequence?_eq_get?`).
-/

namespace CompactFont.Index

/-! ### Accepted INDEXes -/

/-- What is known of an INDEX that was read. -/
structure Accepted (x : Index) : Prop where
  /-- The number of objects has 16 bits. -/
  count_lt : x.count < 65536
  /-- Every object lies within the object data. -/
  encloses {i first last : Nat} : x.offsets[i]? = some first → x.offsets[i + 1]? = some last →
    Encloses x.dataLength first last

theorem length_offsetsOf (width n : Nat) (table : List UInt8) :
    (read.offsetsOf width n table).length = n := by
  induction n generalizing table with
  | zero => rfl
  | succ n ih => rw [read.offsetsOf, List.length_cons, ih]

theorem getElem?_bounds {x : Index} {i first last : Nat} (hfirst : x.offsets[i]? = some first)
    (hlast : x.offsets[i + 1]? = some last) : x.bounds[i]? = some (first, last) := by
  simp only [bounds, List.getElem?_zip_eq_some, List.getElem?_tail, Array.getElem?_toList]
  exact ⟨hfirst, hlast⟩

theorem length_bounds (x : Index) : x.bounds.length = x.count := by
  simp only [bounds, count, List.length_zip, List.length_tail, Array.length_toList]
  omega

theorem length_extents (x : Index) : x.extents.length = x.count := by
  rw [extents, List.length_map, length_bounds]

theorem accepted_empty : empty.Accepted where
  count_lt := by decide
  encloses h _ := by simp [empty] at h

/-- An INDEX that was read is accepted. -/
theorem accepted_of_read {bytes rest : List UInt8} {x : Index} (h : read bytes = .ok (x, rest)) :
    x.Accepted := by
  obtain ⟨⟨n, bytes⟩, -, h⟩ := bind_eq_ok.mp h
  dsimp only at h
  split at h
  · cases h
    exact accepted_empty
  · obtain ⟨⟨size, bytes⟩, -, h⟩ := bind_eq_ok.mp h
    obtain ⟨⟨_, bytes⟩, -, h⟩ := bind_eq_ok.mp h
    obtain ⟨⟨table, bytes⟩, -, h⟩ := bind_eq_ok.mp h
    obtain ⟨⟨_, bytes⟩, -, h⟩ := bind_eq_ok.mp h
    obtain ⟨⟨data, bytes⟩, -, h⟩ := bind_eq_ok.mp h
    obtain ⟨⟨_, bytes⟩, hrequire, h⟩ := bind_eq_ok.mp h
    have all := (Reader.require_eq_ok hrequire).1
    cases h
    refine ⟨?_, fun {i first last} hfirst hlast => ?_⟩
    · have := n.toNat_lt
      simp only [count, List.size_toArray, length_offsetsOf]
      omega
    · have := List.all_eq_true.mp all _ (List.mem_of_getElem? (getElem?_bounds hfirst hlast))
      simpa using this

/-- An object has the bytes between its offsets, if these enclose bytes of the object data. -/
theorem get?_of_offsets {x : Index} {i first last : Nat} (hfirst : x.offsets[i]? = some first)
    (hlast : x.offsets[i + 1]? = some last) :
    x.get? i = if Encloses x.dataLength first last then
      some ((x.data.toList.drop (first - 1)).take (last - first)) else none := by
  rw [get?, hfirst, hlast]
  change (guard (Encloses x.dataLength first last) : Option Unit).bind (fun _ => some _) = _
  by_cases inside : Encloses x.dataLength first last
  · have extract : (x.data.extract (first - 1) (last - 1)).toList =
        (x.data.toList.drop (first - 1)).take (last - first) := by
      rw [Array.toList_extract, List.extract_eq_take_drop]
      congr 1
      have := inside.1
      omega
    rw [guard_of inside, if_pos inside, extract]
    rfl
  · rw [guard_of_not inside, if_neg inside]
    rfl

/-- An object that can be looked up has the bytes between its offsets. -/
theorem get?_eq_some {x : Index} (h : x.Accepted) {i first last : Nat}
    (hfirst : x.offsets[i]? = some first) (hlast : x.offsets[i + 1]? = some last) :
    x.get? i = some ((x.data.toList.drop (first - 1)).take (last - first)) := by
  rw [get?_of_offsets hfirst hlast, if_pos (h.encloses hfirst hlast)]

theorem get?_eq_none {x : Index} {i : Nat} (hi : x.count ≤ i) : x.get? i = none := by
  have none : x.offsets[i + 1]? = none := by
    rw [count] at hi
    exact Array.getElem?_eq_none (by omega)
  rw [get?, none]
  cases x.offsets[i]? <;> rfl

/-- An object has an offset before it and one after it. -/
theorem exists_offsets_of_lt {x : Index} {i : Nat} (hi : i < x.count) :
    ∃ first last, x.offsets[i]? = some first ∧ x.offsets[i + 1]? = some last := by
  rw [count] at hi
  exact ⟨_, _, Array.getElem?_eq_getElem (by omega), Array.getElem?_eq_getElem (by omega)⟩

/-- What can be looked up is an object, whose offsets enclose its bytes. -/
theorem get?_eq_some_iff {x : Index} {i : Nat} {object : List UInt8} :
    x.get? i = some object ↔ ∃ first last, x.offsets[i]? = some first ∧
      x.offsets[i + 1]? = some last ∧ Encloses x.dataLength first last ∧
      object = (x.data.toList.drop (first - 1)).take (last - first) := by
  constructor
  · intro h
    by_cases hi : i < x.count
    · obtain ⟨first, last, hfirst, hlast⟩ := exists_offsets_of_lt hi
      rw [get?_of_offsets hfirst hlast] at h
      by_cases inside : Encloses x.dataLength first last
      · rw [if_pos inside] at h
        exact ⟨first, last, hfirst, hlast, inside, (Option.some.inj h).symm⟩
      · rw [if_neg inside] at h
        cases h
    · rw [get?_eq_none (Nat.not_lt.mp hi)] at h
      cases h
  · rintro ⟨first, last, hfirst, hlast, inside, rfl⟩
    rw [get?_of_offsets hfirst hlast, if_pos inside]

/-- Every object of an accepted INDEX can be looked up. -/
theorem Accepted.exists_get? {x : Index} (h : x.Accepted) {i : Nat} (hi : i < x.count) :
    ∃ object, x.get? i = some object := by
  obtain ⟨first, last, hfirst, hlast⟩ := exists_offsets_of_lt hi
  exact ⟨_, get?_eq_some h hfirst hlast⟩

section

variable {x : Index} (found : ∀ i < x.count, ∃ object, x.get? i = some object)

include found

/-- If every object can be looked up, none is missing when they are listed. -/
theorem exists_objects_eq :
    ∃ object : Nat → List UInt8, (∀ i < x.count, x.get? i = some (object i)) ∧
      x.objects = (List.range x.count).map object := by
  let object (i : Nat) : List UInt8 := (x.get? i).getD []
  have value (i : Nat) (hi : i < x.count) : x.get? i = some (object i) := by
    obtain ⟨bytes, hbytes⟩ := found i hi
    simp only [object, hbytes, Option.getD_some]
  refine ⟨object, value, ?_⟩
  calc x.objects = ((List.range x.count).map x.get?).filterMap id := by
        rw [objects, List.filterMap_map, Function.id_comp]
    _ = (((List.range x.count).map object).map some).filterMap id := by
        rw [List.map_map]
        exact congrArg _ (List.map_congr_left fun i hi => value i (List.mem_range.mp hi))
    _ = (List.range x.count).map object := by simp

theorem length_objects : x.objects.length = x.count := by
  obtain ⟨object, -, listed⟩ := exists_objects_eq found
  rw [listed, List.length_map, List.length_range]

/-- Each of them is listed by its number. -/
theorem getElem?_objects (i : Nat) : x.objects[i]? = x.get? i := by
  obtain ⟨object, value, listed⟩ := exists_objects_eq found
  rw [listed, List.getElem?_map]
  by_cases hi : i < x.count
  · rw [List.getElem?_range hi, Option.map_some, value i hi]
  · rw [get?_eq_none (Nat.le_of_not_lt hi)]
    simpa using hi

end

/-! ### Objects one after the other -/

/-- Byte strings of the given lengths, taken off some bytes one after the other. -/
def consecutive (bytes : List UInt8) : (lengths : List Nat) → List (List UInt8)
  | [] => []
  | n :: lengths => bytes.take n :: consecutive (bytes.drop n) lengths

/-- The bytes of object number `i`, if there is one, where the first object starts the object data
and each other one starts where the one before it ends. -/
def inSequence? (x : Index) (i : Nat) : Option (List UInt8) := do
  let origin ← x.offsets[0]?
  let first ← x.offsets[i]?
  let last ← x.offsets[i + 1]?
  return (x.data.toList.drop (first - origin)).take (last - first)

/-- With the first offset that it should have, an INDEX has its objects where the offsets tell. -/
theorem inSequence?_eq_get? {x : Index} (h : x.Accepted) (origin : x.offsets[0]? = some 1)
    (i : Nat) : x.inSequence? i = x.get? i := by
  cases hfirst : x.offsets[i]? with
  | none => rw [inSequence?, get?, origin, hfirst]; rfl
  | some first =>
    cases hlast : x.offsets[i + 1]? with
    | none => rw [inSequence?, get?, origin, hfirst, hlast]; rfl
    | some last =>
      rw [inSequence?, get?_eq_some h hfirst hlast, origin, hfirst, hlast]
      rfl

/-- The offsets do not decrease from one to the next. -/
def Ordered (offsets : List Nat) : Prop :=
  ∀ i a b, offsets[i]? = some a → offsets[i + 1]? = some b → a ≤ b

theorem Ordered.tail {first : Nat} {offsets : List Nat} (h : Ordered (first :: offsets)) :
    Ordered offsets := fun i a b ha hb => h (i + 1) a b ha hb

/-- Taking the objects off the data one after the other, from where `first` leads to, finds each as
far from the start as its offset is from `origin`. -/
theorem getElem?_consecutive {offsets : List Nat} {origin first : Nat} (data : List UInt8)
    (le : origin ≤ first) (ordered : Ordered (first :: offsets))
    {i a b : Nat} (ha : (first :: offsets)[i]? = some a)
    (hb : (first :: offsets)[i + 1]? = some b) :
    (consecutive (data.drop (first - origin))
      (List.zipWith (fun a b => b - a) (first :: offsets) offsets))[i]? =
        some ((data.drop (a - origin)).take (b - a)) := by
  induction offsets generalizing first i with
  | nil => cases hb
  | cons next offsets ih =>
    cases i with
    | zero =>
      cases ha
      cases hb
      rfl
    | succ i =>
      have step : first ≤ next := ordered 0 first next rfl rfl
      have drop : (data.drop (first - origin)).drop (next - first) = data.drop (next - origin) := by
        rw [List.drop_drop]
        congr 1
        omega
      have hnext := ih (by omega) ordered.tail ha hb
      rw [← drop] at hnext
      exact hnext

/-- The offsets of an INDEX with objects, and what they tell of the lengths of its objects. -/
theorem Accepted.exists_offsets {x : Index} (h : x.Accepted) (some : 0 < x.count) :
    ∃ origin offsets, x.offsets.toList = origin :: offsets ∧ Ordered (origin :: offsets) ∧
      x.extents.map (·.length) = List.zipWith (fun a b => b - a) (origin :: offsets) offsets := by
  cases hoffsets : x.offsets.toList with
  | nil =>
    have : x.offsets.size = 0 := by rw [← Array.length_toList, hoffsets]; rfl
    simp [count, this] at some
  | cons origin offsets =>
    have get (j : Nat) : x.offsets[j]? = (origin :: offsets)[j]? := by
      rw [← Array.getElem?_toList, hoffsets]
    refine ⟨origin, offsets, rfl, fun j a b ha hb => ?_, ?_⟩
    · exact (h.encloses (by rw [get, ha]) (by rw [get, hb])).2.1
    · simp [extents, bounds, hoffsets, List.zip, List.map_zipWith]

/-- Taking the objects off the object data one after the other finds each in sequence. -/
theorem getElem?_consecutive_extents {x : Index} (h : x.Accepted) {i : Nat} (hi : i < x.count) :
    ∃ object, (consecutive x.data.toList (x.extents.map (·.length)))[i]? = some object ∧
      x.inSequence? i = some object := by
  obtain ⟨origin, offsets, hoffsets, ordered, lengths⟩ := h.exists_offsets (Nat.zero_lt_of_lt hi)
  have get (j : Nat) : x.offsets[j]? = (origin :: offsets)[j]? := by
    rw [← Array.getElem?_toList, hoffsets]
  obtain ⟨a, b, ha, hb⟩ := exists_offsets_of_lt hi
  rw [get] at ha hb
  have found := getElem?_consecutive x.data.toList (Nat.le_refl origin) ordered ha hb
  rw [Nat.sub_self, List.drop_zero, ← lengths] at found
  exact ⟨_, found, by simp [inSequence?, get, ha, hb]⟩

/-! ### INDEXes of one shape -/

/-- As many objects in as many bytes, at the same places. -/
structure SameShape (x y : Index) : Prop where
  /-- The offsets are the same. -/
  offsets : x.offsets = y.offsets
  /-- There are as many bytes of object data. -/
  size : x.data.size = y.data.size

theorem SameShape.count_eq {x y : Index} (h : x.SameShape y) : x.count = y.count := by
  rw [count, count, h.offsets]

/-- Whether there is an object, and how long it is, is a matter of the shape. -/
theorem SameShape.map_length_get? {x y : Index} (h : x.SameShape y) (i : Nat) :
    (x.get? i).map List.length = (y.get? i).map List.length := by
  have size : x.dataLength = y.dataLength := h.size
  by_cases hi : i < x.count
  · obtain ⟨first, last, hfirst, hlast⟩ := exists_offsets_of_lt hi
    rw [get?_of_offsets hfirst hlast, get?_of_offsets (h.offsets ▸ hfirst) (h.offsets ▸ hlast), size]
    split
    · simp [h.size]
    · rfl
  · rw [get?_eq_none (Nat.not_lt.mp hi), get?_eq_none (h.count_eq ▸ Nat.not_lt.mp hi)]

end CompactFont.Index
