import CompactFont.Bytes.Packed
import CompactFont.Proofs.Outcome

/-!
# Readers and the bytes that they leave

A reader reads a value off some bytes and leaves others. It is exact when the value is a matter of
the bytes that it takes alone: whatever comes after them instead, the value is the same and the
reader leaves just that (`Exact`). Readers of cells are exact, and sequencing keeps exactness.

A reader is oblivious when it is a matter of how many bytes there are, not of what they are, whether it
fails and how many it leaves (`Oblivious`). Readers of cells are, as all bytes stand for some value.

A cursor that runs a reader moves over the bytes that the reader takes (`Cursor.read_of_append`).
-/

namespace CompactFont

/-! ### Readers that succeed -/

theorem Reader.take_eq_ok {n : Nat} {bytes front rest : List UInt8}
    (h : Reader.take n bytes = .ok (front, rest)) :
    front = bytes.take n ∧ front.length = n ∧ rest = bytes.drop n := by
  simp only [Reader.take] at h
  split at h
  · rename_i hlen
    cases h
    exact ⟨rfl, hlen, rfl⟩
  · cases h

/-- The bytes that are taken are in front, and as many as were asked for. -/
theorem Reader.append_of_take {n : Nat} {bytes front rest : List UInt8}
    (h : Reader.take n bytes = .ok (front, rest)) : bytes = front ++ rest ∧ front.length = n := by
  obtain ⟨rfl, length, rfl⟩ := Reader.take_eq_ok h
  exact ⟨(List.take_append_drop n bytes).symm, length⟩

theorem Reader.require_eq_ok {condition : Bool} {fault : ReadFault} {bytes rest : List UInt8}
    {u : Unit} (h : Reader.require condition fault bytes = .ok (u, rest)) :
    condition = true ∧ rest = bytes := by
  cases condition with
  | true => cases h; exact ⟨rfl, rfl⟩
  | false => cases h

/-- A reader that succeeds hands its value, and the bytes that are left, to the next one. -/
theorem Reader.bind_of {ε α β : Type} {r : ReaderOf ε α} {bytes rest : List UInt8} {a : α}
    (h : r bytes = .ok (a, rest)) (f : α → ReaderOf ε β) : (r >>= f) bytes = f a rest := by
  show (r bytes >>= fun p => f p.1 p.2) = f a rest
  rw [h]
  rfl

theorem Reader.map_of {ε α β : Type} {r : ReaderOf ε α} {bytes rest : List UInt8} {a : α}
    (h : r bytes = .ok (a, rest)) (f : α → β) : (f <$> r) bytes = .ok (f a, rest) :=
  Reader.bind_of h fun a => pure (f a)

/-- A cell is read off as many bytes as it is wide. -/
theorem Cell.read_eq_ok {α : Type} {cell : Cell α} {bytes rest : List UInt8} {a : α}
    (h : cell.read bytes = .ok (a, rest)) :
    ∃ front, front.length = cell.width ∧ bytes = front ++ rest ∧ a = cell.decode front := by
  obtain ⟨⟨front, left⟩, hfront, h⟩ := bind_eq_ok.mp h
  cases h
  obtain ⟨split, length⟩ := Reader.append_of_take hfront
  exact ⟨_, length, split, rfl⟩

/-- A byte that was read is in front. -/
theorem Cell.read_uint8_eq_ok {bytes rest : List UInt8} {b : UInt8}
    (h : Cell.uint8.read bytes = .ok (b, rest)) : bytes = b :: rest := by
  obtain ⟨front, length, rfl, rfl⟩ := Cell.read_eq_ok h
  obtain ⟨c, rfl⟩ := List.length_eq_one_iff.mp length
  have same : Cell.uint8.decode [c] = c := by
    show UInt8.ofNat (0 * 256 + c.toNat) = c
    simp
  rw [same, List.singleton_append]

/-- A number of two bytes that was read is in front. -/
theorem Cell.read_uint16_eq_ok {bytes rest : List UInt8} {n : UInt16}
    (h : Cell.uint16.read bytes = .ok (n, rest)) :
    bytes = BigEndian.toBytes 2 n.toNat ++ rest := by
  obtain ⟨front, length, rfl, rfl⟩ := Cell.read_eq_ok h
  have small := BigEndian.ofBytes_lt front
  have same := BigEndian.toBytes_ofBytes front
  rw [show front.length = 2 from length] at small same
  have value : (Cell.uint16.decode front).toNat = BigEndian.ofBytes front :=
    UInt16.toNat_ofNat_of_lt' small
  rw [value, same]

/-- A byte is read as itself. -/
theorem Cell.read_uint8 (b : UInt8) (rest : List UInt8) :
    Cell.uint8.read (b :: rest) = .ok (b, rest) := by
  show Except.ok (UInt8.ofNat (0 * 256 + b.toNat), rest) = .ok (b, rest)
  simp

theorem Reader.require_of {condition : Bool} (h : condition = true) (fault : ReadFault)
    (bytes : List UInt8) : Reader.require condition fault bytes = .ok ((), bytes) := by
  subst h
  rfl

/-- An array is read off as many bytes as its cells are wide together, which is a number of 64 bits. -/
theorem Packed.read_eq_ok {α : Type} {cell : Cell α} {count : Nat} {bytes rest : List UInt8}
    {items : Packed α} : Packed.read cell count bytes = .ok (items, rest) ↔
      count * cell.width < sizeLimit ∧ ∃ block, block.length = count * cell.width ∧
        bytes = block ++ rest ∧ items = ⟨cell, count, block⟩ := by
  constructor
  · intro h
    obtain ⟨⟨_, bytes⟩, required, h⟩ := bind_eq_ok.mp h
    obtain ⟨⟨block, left⟩, taken, h⟩ := bind_eq_ok.mp h
    cases h
    obtain ⟨small, rfl⟩ := Reader.require_eq_ok required
    obtain ⟨split, length⟩ := Reader.append_of_take taken
    exact ⟨of_decide_eq_true small, block, length, split, rfl⟩
  · rintro ⟨small, block, length, rfl, rfl⟩
    rw [read, Reader.bind_of (Reader.require_of (decide_eq_true small) _ _),
      Reader.bind_of (Reader.take_append length)]
    rfl

/-- A window starts within its scope, unless it is empty, and ends there. -/
theorem Scope.window_eq_ok {s w : Scope} {start length : Nat} :
    s.window start length = .ok w ↔ (start < s.bytes.length ∨ length = 0) ∧
      length ≤ (s.bytes.drop start).length ∧
      w = ⟨s.base + start, (s.bytes.drop start).take length⟩ := by
  unfold Scope.window
  by_cases starts : start < s.bytes.length ∨ length = 0
  · by_cases ends : length ≤ (s.bytes.drop start).length
    · rw [if_pos starts, if_pos ends, Except.ok.injEq, eq_comm]
      exact ⟨fun h => ⟨starts, ends, h⟩, fun h => h.2.2⟩
    · rw [if_pos starts, if_neg ends]
      exact ⟨nofun, fun h => absurd h.2.1 ends⟩
  · rw [if_neg starts]
    exact ⟨nofun, fun h => absurd h.1 starts⟩

theorem Cursor.length_rest (c : Cursor) : c.rest.bytes.length = c.left := List.length_drop

/-- A cursor moves from the start of the bytes that a reader takes to their end. -/
theorem Cursor.read_of_append {ε α : Type} {r : ReaderOf ε α} {bytes rest : List UInt8} {value : α}
    (h : r (bytes ++ rest) = .ok (value, rest)) (base : Nat) (before : List UInt8) :
    Cursor.read ⟨⟨base, before ++ (bytes ++ rest)⟩, before.length⟩ r =
      .ok (value, ⟨⟨base, before ++ (bytes ++ rest)⟩, before.length + bytes.length⟩) := by
  have here : (⟨⟨base, before ++ (bytes ++ rest)⟩, before.length⟩ : Cursor).rest.bytes =
      bytes ++ rest := List.drop_left
  have moved : (before ++ (bytes ++ rest)).length - rest.length =
      before.length + bytes.length := by
    simp only [List.length_append]
    omega
  unfold Cursor.read
  rw [here, h]
  exact congrArg (fun pos => Except.ok (value, Cursor.mk _ pos)) moved

/-! ### Exact readers -/

/-- What the reader reads depends on nothing but the bytes that it takes. -/
def Exact {ε α : Type} (r : ReaderOf ε α) : Prop :=
  ∀ bytes value rest, r bytes = .ok (value, rest) →
    ∃ front, bytes = front ++ rest ∧ ∀ more, r (front ++ more) = .ok (value, more)

namespace Exact

variable {ε α β : Type}

theorem pure (value : α) : Exact (Pure.pure value : ReaderOf ε α) := by
  intro bytes value' rest h
  cases h
  exact ⟨[], rfl, fun more => rfl⟩

theorem throw (fault : ε) : Exact (MonadExcept.throw fault : ReaderOf ε α) := by
  intro bytes value rest h
  cases h

theorem bind {r : ReaderOf ε α} {f : α → ReaderOf ε β} (hr : Exact r) (hf : ∀ a, Exact (f a)) :
    Exact (r >>= f) := by
  intro bytes value rest h
  obtain ⟨⟨a, middle⟩, ha, hvalue⟩ := bind_eq_ok.mp h
  obtain ⟨front, rfl, hfront⟩ := hr _ _ _ ha
  obtain ⟨front', rfl, hfront'⟩ := hf a _ _ _ hvalue
  refine ⟨front ++ front', by rw [List.append_assoc], fun more => ?_⟩
  refine bind_eq_ok.mpr ⟨(a, front' ++ more), ?_, hfront' more⟩
  rw [List.append_assoc]
  exact hfront (front' ++ more)

theorem map {r : ReaderOf ε α} (hr : Exact r) (f : α → β) : Exact (f <$> r) :=
  bind hr fun a => pure (f a)

theorem take (n : Nat) : Exact (Reader.take n) := by
  intro bytes value rest h
  obtain ⟨rfl, hlen, rfl⟩ := Reader.take_eq_ok h
  exact ⟨bytes.take n, (List.take_append_drop n bytes).symm, fun more => Reader.take_append hlen⟩

theorem untilNibble (n : UInt8) : Exact (Reader.untilNibble n) := by
  intro bytes value rest h
  obtain ⟨rfl, length⟩ := Reader.append_of_take h
  refine ⟨value, rfl, fun more => ?_⟩
  -- The byte with the nibble is among those that are taken.
  have found : ((value.takeWhile fun b => !Reader.hasNibble n b)).length ≠ value.length := by
    intro all
    rw [List.takeWhile_append, if_pos all, List.length_append] at length
    omega
  rw [List.takeWhile_append, if_neg found] at length
  rw [Reader.untilNibble, List.takeWhile_append, if_neg found]
  exact Reader.take_append length

theorem read (cell : Cell α) : Exact cell.read := map (take cell.width) _

theorem require (condition : Bool) (fault : ReadFault) : Exact (Reader.require condition fault) := by
  cases condition with
  | true => exact pure ()
  | false => exact throw fault

theorem readPacked (cell : Cell α) (count : Nat) : Exact (Packed.read cell count) :=
  bind (require _ _) fun _ => bind (take _) fun _ => pure _

theorem readList (cell : Cell α) (count : Nat) : Exact (Packed.readList cell count) :=
  map (readPacked cell count) _

/-- A reader of a plain value is as exact in the course of reading a table. -/
theorem lift {r : Reader α} (hr : Exact r) : Exact (liftM r : TableReader α) := by
  intro bytes value rest h
  cases hb : r bytes with
  | error fault =>
    change (r bytes).mapError FontFault.read = _ at h
    rw [hb] at h
    cases h
  | ok p =>
    change (r bytes).mapError FontFault.read = _ at h
    rw [hb] at h
    cases h
    obtain ⟨front, hfront, each⟩ := hr _ _ _ hb
    refine ⟨front, hfront, fun more => ?_⟩
    show (r (front ++ more)).mapError FontFault.read = _
    rw [each]
    rfl

/-- Bytes that come after those that a reader takes are left as well. -/
theorem append {r : ReaderOf ε α} (hr : Exact r) {bytes rest : List UInt8} {value : α}
    (h : r bytes = .ok (value, rest)) (extra : List UInt8) :
    r (bytes ++ extra) = .ok (value, rest ++ extra) := by
  obtain ⟨front, rfl, each⟩ := hr _ _ _ h
  rw [List.append_assoc]
  exact each (rest ++ extra)

end Exact

/-! ### Oblivious readers -/

/-- With as many bytes the reader fails alike, or leaves as many bytes. -/
def Oblivious {ε α : Type} (r : ReaderOf ε α) : Prop :=
  ∀ bytes bytes', bytes.length = bytes'.length →
    Related (fun read read' => read.2.length = read'.2.length) (r bytes) (r bytes')

namespace Oblivious

variable {ε α β : Type}

theorem pure (value : α) : Oblivious (Pure.pure value : ReaderOf ε α) := fun _ _ same => .ok same

theorem map {r : ReaderOf ε α} (h : Oblivious r) (f : α → β) : Oblivious (f <$> r) :=
  fun bytes bytes' same => (h bytes bytes' same).bind fun _ _ _ _ left => .ok left

theorem take (n : Nat) : Oblivious (Reader.take n) := by
  intro bytes bytes' same
  simp only [Reader.take, List.length_take, same]
  split
  · exact .ok (by simp [same])
  · exact .error _

theorem read (cell : Cell α) : Oblivious cell.read := map (take cell.width) _

end Oblivious

end CompactFont
