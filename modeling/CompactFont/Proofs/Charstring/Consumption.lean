import CompactFont.Proofs.Charstring.Execution
import CompactFont.Proofs.Index

/-!
# What decoding takes bytes for

Decoding takes each byte that it comes to either for a token or for a mask: in the charstring itself and
in the subroutines that it calls, of which some bytes can be taken more than once, and others never.
`Input.consumed` lists the bytes that are taken, by their places, up to the end or to the fault.

Two inputs are of one shape if they have as many bytes, with their objects at the same places
(`Input.SameShape`). So bytes can be followed through both at once (`Parallel`). Decoding does not look at
a byte before it takes it: where the inputs agree on the bytes that the first one takes for a token, the
second one has the same token there (`Parallel.readAfter_eq_ok`).
-/

namespace CompactFont.Charstring

/-! ### Bytes and their places -/

/-- What is decoded: a charstring with the subroutines that it can call. -/
structure Input where
  /-- The charstring. -/
  charstring : List UInt8
  /-- The subroutines. -/
  sets : SubroutineSets

/-- Where a byte is. -/
structure Place where
  /-- The charstring, or the subroutines of a scope. -/
  source : Option SubrScope
  /-- How many bytes come before it there. -/
  index : Nat
  deriving DecidableEq

/-- What a byte is taken for. -/
inductive Use where
  /-- For an operand or an operator, or a part of it. -/
  | token
  /-- For a part of a mask. -/
  | mask
  deriving DecidableEq

/-- A byte that is taken. -/
structure Consumed where
  /-- Where it is. -/
  place : Place
  /-- What it is taken for. -/
  use : Use
  deriving DecidableEq

namespace Input

/-- Decodes the charstring. -/
def decode (input : Input) : Except FontFault (List Instruction) :=
  Charstring.decode input.sets input.charstring

/-- The bytes of a source: all of the charstring, or the object data of all subroutines of a scope. -/
def bytes (input : Input) : Option SubrScope → List UInt8
  | none => input.charstring
  | some scope =>
    match input.sets.get scope with
    | .ok subroutines => subroutines.index.data.toList
    | .error _ => []

/-- The byte at a place. -/
def byte? (input : Input) (place : Place) : Option UInt8 := (input.bytes place.source)[place.index]?

end Input

/-- The bytes of a source from where `n` bytes are left up to `stop` to where `m` of them are left. -/
def spent (use : Use) (source : Option SubrScope) (stop n m : Nat) : List Consumed :=
  (List.range' (stop - n) (n - m)).map fun index => ⟨⟨source, index⟩, use⟩

/-- Where the subroutine that an operand selects ends, in the object data. -/
def Subroutines.stop (s : Subroutines) (operand : Int32) : Nat :=
  s.index.offsets.getD ((operand.toInt + s.bias).toNat + 1) 1 - 1

/-! ### Bytes that are taken -/

/-- What a call takes, given what decoding takes of a subroutine. -/
def consumedByCall (sets : SubroutineSets)
    (callee : SubrScope → Nat → List UInt8 → Progress → List Consumed) (scope : SubrScope)
    (p : Progress) : Except FontFault (List Consumed) := do
  let (operand, p) ← p.takeCallOperand
  let subroutines ← sets.get scope
  return callee scope (subroutines.stop operand) (← subroutines.get operand) p

/-- What is taken of subroutines by a token. -/
def consumedByToken (sets : SubroutineSets)
    (callee : SubrScope → Nat → List UInt8 → Progress → List Consumed) (p : Progress) :
    Token → List Consumed
  | .call scope => (consumedByCall sets callee scope p).toOption.getD []
  | _ => []

theorem consumedByToken_call {sets : SubroutineSets}
    {callee : SubrScope → Nat → List UInt8 → Progress → List Consumed} {scope : SubrScope}
    {operand : Int32} {s : Subroutines} {bytes : List UInt8} {p q : Progress}
    (popped : p.takeCallOperand = .ok (operand, q)) (known : sets.get scope = .ok s)
    (found : s.get operand = .ok bytes) :
    consumedByToken sets callee p (.call scope) = callee scope (s.stop operand) bytes q := by
  simp only [consumedByToken, consumedByCall, popped, known, found, bind, Except.bind]
  rfl

/-- What decoding takes of bytes that end at `stop`, and of the subroutines that they call. -/
def consumedBytes (sets : SubroutineSets) (run : Option (List UInt8 → Progress → Decoded))
    (callee : SubrScope → Nat → List UInt8 → Progress → List Consumed) (source : Option SubrScope)
    (stop : Nat) (bytes : List UInt8) (p : Progress) : List Consumed :=
  match bytes with
  | [] => []
  | b :: bytes =>
    match ht : Token.readAfter b bytes with
    | .error _ => spent .token source stop (bytes.length + 1) bytes.length
    | .ok (token, rest) =>
      spent .token source stop (bytes.length + 1) rest.length ++ consumedByToken sets callee p token ++
        match hp : perform sets run token p rest with
        | .ok (.go q left) =>
          have : left.length ≤ rest.length := length_le_of_perform hp
          have : rest.length ≤ bytes.length := (Token.consumes_readAfter b).length_le ht
          spent .mask source stop rest.length left.length ++
            consumedBytes sets run callee source stop left q
        | .ok (.stop _ _) | .error _ => []
termination_by bytes.length

/-- What decoding takes where so many calls can still be nested. -/
def consumedNested (sets : SubroutineSets) :
    (calls : Nat) → Option SubrScope → Nat → List UInt8 → Progress → List Consumed
  | 0 => consumedBytes sets none fun _ _ _ _ => []
  | calls + 1 =>
    consumedBytes sets (some (decodeNested sets calls)) fun scope =>
      consumedNested sets calls (some scope)

/-- The bytes that decoding takes, in order, up to its end or to the fault. -/
def Input.consumed (input : Input) : List Consumed :=
  consumedNested input.sets nestingLimit none input.charstring.length input.charstring {}

section

variable {sets : SubroutineSets} {run : Option (List UInt8 → Progress → Decoded)}
  {callee : SubrScope → Nat → List UInt8 → Progress → List Consumed} {source : Option SubrScope}
  {stop : Nat} {b : UInt8} {bytes : List UInt8}

theorem consumedBytes_unread {fault : ReadFault} (read : Token.readAfter b bytes = .error fault)
    (p : Progress) :
    consumedBytes sets run callee source stop (b :: bytes) p =
      spent .token source stop (bytes.length + 1) bytes.length := by
  rw [consumedBytes]
  split
  · rfl
  · rename_i hread
    rw [read] at hread
    cases hread

theorem consumedBytes_read {token : Token} {rest : List UInt8}
    (read : Token.readAfter b bytes = .ok (token, rest)) (p : Progress) :
    consumedBytes sets run callee source stop (b :: bytes) p =
      spent .token source stop (bytes.length + 1) rest.length ++ consumedByToken sets callee p token ++
        match perform sets run token p rest with
        | .ok (.go q left) => spent .mask source stop rest.length left.length ++
            consumedBytes sets run callee source stop left q
        | .ok (.stop _ _) | .error _ => [] := by
  rw [consumedBytes]
  split
  · rename_i hread
    rw [read] at hread
    cases hread
  · rename_i hread
    rw [read] at hread
    cases hread
    congr 1
    split
    all_goals
      rename_i hp
      simp only [hp]

end

/-! ### Inputs of one shape -/

/-- As many bytes in both charstrings, and subroutines of one shape. -/
structure Input.SameShape (input input' : Input) : Prop where
  /-- The charstrings. -/
  charstring : input.charstring.length = input'.charstring.length
  /-- The subroutines of all fonts. -/
  inAll : input.sets.inAll.index.SameShape input'.sets.inAll.index
  /-- Those of the Private DICT: both have some, or none has. -/
  inPrivate : Option.Rel (fun s s' => s.index.SameShape s'.index) input.sets.inPrivate
    input'.sets.inPrivate

/-- Inputs of one shape have subroutines in the same scopes. -/
theorem Input.SameShape.get {input input' : Input} (h : input.SameShape input') (scope : SubrScope) :
    Related (fun s s' => s.index.SameShape s'.index) (input.sets.get scope)
      (input'.sets.get scope) := by
  cases scope with
  | inAll => exact .ok h.inAll
  | inPrivate =>
    have rel := h.inPrivate
    unfold SubroutineSets.get
    generalize input.sets.inPrivate = s, input'.sets.inPrivate = s' at rel
    cases rel with
    | some same => exact .ok same
    | none => exact .error _

theorem Subroutines.get_eq_ok {s : Subroutines} {operand : Int32} {bytes : List UInt8}
    (h : s.get operand = .ok bytes) :
    s.index.get? (operand.toInt + s.bias).toNat = some bytes := by
  simp only [Subroutines.get] at h
  split at h
  · rename_i object found
    cases h
    obtain ⟨number, named, hget⟩ := Option.bind_eq_some_iff.mp found
    rw [Subroutines.number?] at named
    split at named
    · cases named
      exact hget
    · cases named
  · cases h

theorem Subroutines.bias_eq {s s' : Subroutines} (h : s.index.SameShape s'.index) :
    s.bias = s'.bias := by
  rw [Subroutines.bias, Subroutines.bias, h.count_eq]

theorem Subroutines.stop_eq {s s' : Subroutines} (h : s.index.SameShape s'.index) (operand : Int32) :
    s.stop operand = s'.stop operand := by
  rw [Subroutines.stop, Subroutines.stop, bias_eq h, h.offsets]

/-- Whether there is a subroutine, and how long it is, is the same. -/
theorem Subroutines.related_get {s s' : Subroutines} (h : s.index.SameShape s'.index)
    (operand : Int32) :
    Related (fun bytes bytes' : List UInt8 => bytes.length = bytes'.length) (s.get operand)
      (s'.get operand) := by
  have number : s.number? operand = s'.number? operand := by
    rw [Subroutines.number?, Subroutines.number?, bias_eq h]
  rw [Subroutines.get, Subroutines.get, number]
  cases s'.number? operand with
  | none => exact .error _
  | some number =>
    have length := h.map_length_get? number
    simp only [Option.bind_some]
    cases hget : s.index.get? number with
    | none =>
      rw [hget] at length
      rw [Option.map_eq_none_iff.mp length.symm]
      exact .error _
    | some bytes =>
      rw [hget] at length
      obtain ⟨bytes', hget', same⟩ := Option.map_eq_some_iff.mp length.symm
      rw [hget']
      exact .ok same.symm

/-! ### Bytes within their source -/

/-- The bytes are those of a source that come before `stop`. -/
structure Input.Located (input : Input) (source : Option SubrScope) (stop : Nat) (bytes : List UInt8) :
    Prop where
  /-- There are as many. -/
  length_le : bytes.length ≤ stop
  /-- Each of them is at its place. -/
  each : ∀ i < bytes.length, input.byte? ⟨source, stop - bytes.length + i⟩ = bytes[i]?

namespace Input.Located

variable {input : Input} {source : Option SubrScope} {stop : Nat} {bytes : List UInt8}

theorem charstring (input : Input) :
    input.Located none input.charstring.length input.charstring where
  length_le := Nat.le_refl _
  each i _ := by rw [Nat.sub_self, Nat.zero_add]; rfl

theorem drop (h : input.Located source stop bytes) (k : Nat) :
    input.Located source stop (bytes.drop k) where
  length_le := by
    rw [List.length_drop]
    exact Nat.le_trans (Nat.sub_le _ _) h.length_le
  each i hi := by
    rw [List.length_drop] at hi ⊢
    have place : stop - (bytes.length - k) + i = stop - bytes.length + (k + i) := by
      have := h.length_le
      omega
    rw [place, h.each (k + i) (by omega), List.getElem?_drop]

/-- A subroutine is where its offsets tell. -/
theorem get {scope : SubrScope} {s : Subroutines} {operand : Int32}
    (known : input.sets.get scope = .ok s) (found : s.get operand = .ok bytes) :
    input.Located (some scope) (s.stop operand) bytes := by
  obtain ⟨first, last, -, hlast, ⟨one, ordered, fits⟩, rfl⟩ :=
    Index.get?_eq_some_iff.mp (Subroutines.get_eq_ok found)
  have stop : s.stop operand = last - 1 := by
    rw [Subroutines.stop, Array.getD_eq_getD_getElem?, hlast, Option.getD_some]
  have length : ((s.index.data.toList.drop (first - 1)).take (last - first)).length =
      last - first := by
    rw [List.length_take, List.length_drop, Array.length_toList]
    change last - 1 ≤ s.index.data.size at fits
    omega
  rw [stop]
  refine ⟨by omega, fun i hi => ?_⟩
  have place : last - 1 - (last - first) + i = first - 1 + i := by omega
  rw [length] at hi ⊢
  rw [List.getElem?_take_of_lt hi, List.getElem?_drop, place]
  simp only [Input.byte?, Input.bytes, known]

end Input.Located

theorem Token.oblivious_readAfter (b : UInt8) : Oblivious (Token.readAfter b) := by
  unfold Token.readAfter
  repeat' split
  all_goals
    first
    | exact Oblivious.map (Oblivious.read _) _
    | exact Oblivious.pure _

/-! ### Bytes at the same places of two inputs -/

/-- Bytes at the same places of two inputs. -/
structure Parallel (input input' : Input) (source : Option SubrScope) (stop : Nat)
    (bytes bytes' : List UInt8) : Prop where
  /-- They are as many. -/
  length : bytes.length = bytes'.length
  /-- Those of the first input. -/
  located : input.Located source stop bytes
  /-- Those of the second one. -/
  located' : input'.Located source stop bytes'

/-- The inputs have the same bytes wherever a byte is taken for a token. -/
def Agree (input input' : Input) (consumed : List Consumed) : Prop :=
  ∀ c ∈ consumed, c.use = .token → input.byte? c.place = input'.byte? c.place

namespace Agree

variable {input input' : Input} {consumed others : List Consumed}

theorem left (h : Agree input input' (consumed ++ others)) : Agree input input' consumed :=
  fun c hc => h c (List.mem_append_left others hc)

theorem right (h : Agree input input' (consumed ++ others)) : Agree input input' others :=
  fun c hc => h c (List.mem_append_right consumed hc)

end Agree

namespace Parallel

variable {input input' : Input} {source : Option SubrScope} {stop : Nat}
  {bytes bytes' : List UInt8}

theorem drop (h : Parallel input input' source stop bytes bytes') (k : Nat) :
    Parallel input input' source stop (bytes.drop k) (bytes'.drop k) where
  length := by rw [List.length_drop, List.length_drop, h.length]
  located := h.located.drop k
  located' := h.located'.drop k

/-- Bytes in front that are taken for tokens are the same. -/
theorem take_eq (h : Parallel input input' source stop bytes bytes') {m : Nat}
    (agree : Agree input input' (spent .token source stop bytes.length m)) :
    bytes.take (bytes.length - m) = bytes'.take (bytes.length - m) := by
  apply List.ext_getElem?
  intro i
  rw [List.getElem?_take, List.getElem?_take]
  split
  · rename_i hi
    have here : i < bytes.length := by omega
    have taken : (⟨⟨source, stop - bytes.length + i⟩, .token⟩ : Consumed) ∈
        spent .token source stop bytes.length m :=
      List.mem_map.mpr ⟨_, List.mem_range'_1.mpr ⟨Nat.le_add_right _ _, by omega⟩, rfl⟩
    rw [← h.located.each i here, agree _ taken rfl, h.length]
    exact h.located'.each i (h.length ▸ here)
  · rfl

variable {b b' : UInt8} {rest : List UInt8} {token : Token}

/-- A token that is read off the first bytes is read off the second ones. -/
theorem readAfter_eq_ok (h : Parallel input input' source stop (b :: bytes) (b' :: bytes'))
    (read : Token.readAfter b bytes = .ok (token, rest))
    (agree : Agree input input' (spent .token source stop (bytes.length + 1) rest.length)) :
    ∃ rest', Token.readAfter b' bytes' = .ok (token, rest') ∧
      Parallel input input' source stop rest rest' := by
  obtain ⟨front, rfl, each⟩ := Token.exact_readAfter b _ _ _ read
  have same := h.take_eq agree
  have taken : (b :: (front ++ rest)).length - rest.length = front.length + 1 := by
    simp only [List.length_cons, List.length_append]
    omega
  rw [taken, List.take_succ_cons, List.take_succ_cons, List.take_left' rfl, List.cons.injEq] at same
  obtain ⟨rfl, hfront⟩ := same
  have split : bytes' = front ++ bytes'.drop front.length := by
    conv => lhs; rw [← List.take_append_drop front.length bytes', ← hfront]
  refine ⟨bytes'.drop front.length, ?_, ?_⟩
  · rw [split, each, List.drop_left]
  · simpa using h.drop (front.length + 1)

/-- A token that cannot be read off the first bytes cannot be read off the second ones. -/
theorem readAfter_eq_error {fault : ReadFault}
    (h : Parallel input input' source stop (b :: bytes) (b' :: bytes'))
    (read : Token.readAfter b bytes = .error fault)
    (agree : Agree input input' (spent .token source stop (bytes.length + 1) bytes.length)) :
    Token.readAfter b' bytes' = .error fault := by
  have same := h.take_eq agree
  have one : (b :: bytes).length - bytes.length = 1 := Nat.add_sub_cancel_left ..
  rw [one] at same
  obtain rfl : b = b' := by simpa using same
  have alike := Token.oblivious_readAfter b bytes bytes' (Nat.succ.inj h.length)
  rw [read] at alike
  generalize Token.readAfter b bytes' = read' at alike
  cases alike
  rfl

end Parallel

end CompactFont.Charstring
