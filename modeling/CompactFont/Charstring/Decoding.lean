import CompactFont.Charstring.Progress
import CompactFont.Charstring.Subroutines

/-!
# Decoding a charstring

A charstring is decoded token by token into a list of instructions. A call goes on with the bytes of
the subroutine and then comes back, so that no call is left in the list; calls can be nested nine
deep within the charstring. The end of a subroutine's bytes and the operator that ends it are alike;
the operator that ends the glyph ends all of them.

The recursion is on the number of calls that can still be nested, and within one string of bytes on
the bytes that are left.
-/

namespace CompactFont.Charstring

/-- How a string of bytes came to its end. -/
inductive Ending where
  /-- No byte is left. -/
  | exhausted
  /-- The operator that ends a subroutine was met. -/
  | returned
  /-- The operator that ends the glyph was met. -/
  | finished
  deriving DecidableEq

/-- How a string of bytes came to its end, and what is known there. -/
abbrev Decoded := Except FontFault (Ending × Progress)

/-- What one token leads to. -/
inductive Next where
  /-- To the bytes that are left. -/
  | go (p : Progress) (rest : List UInt8)
  /-- To an end. -/
  | stop (ending : Ending) (p : Progress)

/-- Calls a subroutine, given what decodes its bytes, if there is room for one more nested call. -/
def call (sets : SubroutineSets) (run : Option (List UInt8 → Progress → Decoded)) (scope : SubrScope)
    (p : Progress) : Decoded := do
  let (operand, p) ← p.takeCallOperand
  let subroutines ← sets.get scope
  match run with
  | none => throw .nestedTooDeeply
  | some run => run (← subroutines.get operand) p

/-- Performs a token; `rest` are the bytes after it. -/
def perform (sets : SubroutineSets) (run : Option (List UInt8 → Progress → Decoded)) (token : Token)
    (p : Progress) (rest : List UInt8) : Except FontFault Next :=
  match token with
  | .operand value => .ok (.go (p.operand value) rest)
  | .reserved => .ok (.go p rest)
  | .escaped operator => (Next.go · rest) <$> p.escaped operator
  | .stem kind => (Next.go · rest) <$> p.stem kind
  | .move kind => (Next.go · rest) <$> p.move kind
  | .draw kind => .ok (.go (p.draw kind) rest)
  | .mask kind =>
    match p.stemsForMask kind with
    | .error fault => .error fault
    | .ok p =>
      match p.maskBytes rest with
      | .error _ => .error .maskTruncated
      | .ok (bytes, rest) => .ok (.go (p.mask kind bytes) rest)
  | .endchar => Next.stop .finished <$> p.endchar
  | .ret => .ok (.stop .returned p)
  | .call scope =>
    match call sets run scope p with
    | .error fault => .error fault
    | .ok (.finished, p) => .ok (.stop .finished p)
    | .ok (_, p) => .ok (.go p rest)

/-- A token leads to no more bytes than there are after it. -/
theorem length_le_of_perform {sets : SubroutineSets} {run : Option (List UInt8 → Progress → Decoded)}
    {token : Token} {p q : Progress} {rest left : List UInt8}
    (h : perform sets run token p rest = .ok (.go q left)) : left.length ≤ rest.length := by
  have same {r : Except FontFault Progress} (h : (Next.go · rest) <$> r = .ok (.go q left)) :
      left.length ≤ rest.length := by
    cases r with
    | error fault => cases h
    | ok r => cases h; exact Nat.le_refl _
  cases token with
  | operand value => cases h; exact Nat.le_refl _
  | reserved => cases h; exact Nat.le_refl _
  | escaped operator => exact same h
  | stem kind => exact same h
  | move kind => exact same h
  | draw kind => cases h; exact Nat.le_refl _
  | mask kind =>
    simp only [perform] at h
    split at h
    · cases h
    · split at h
      · cases h
      · rename_i hr
        cases h
        exact (Progress.consumes_maskBytes _).length_le hr
  | endchar =>
    simp only [perform] at h
    cases hp : p.endchar with
    | error fault => rw [hp] at h; cases h
    | ok r => rw [hp] at h; cases h
  | ret => cases h
  | call scope =>
    simp only [perform] at h
    split at h
    · cases h
    · cases h
    · cases h; exact Nat.le_refl _

/-- Decodes bytes to their end, given what decodes the bytes of a subroutine. -/
def decodeBytes (sets : SubroutineSets) (run : Option (List UInt8 → Progress → Decoded))
    (bytes : List UInt8) (p : Progress) : Decoded :=
  match bytes with
  | [] => .ok (.exhausted, p)
  | b :: bytes =>
    match ht : Token.readAfter b bytes with
    | .error fault => .error (.read fault)
    | .ok (token, rest) =>
      match hp : perform sets run token p rest with
      | .error fault => .error fault
      | .ok (.stop ending p) => .ok (ending, p)
      | .ok (.go p left) =>
        have : left.length ≤ rest.length := length_le_of_perform hp
        have : rest.length ≤ bytes.length := (Token.consumes_readAfter b).length_le ht
        decodeBytes sets run left p
termination_by bytes.length

/-- Decodes bytes to their end, where so many calls can still be nested. -/
def decodeNested (sets : SubroutineSets) : (calls : Nat) → List UInt8 → Progress → Decoded
  | 0 => decodeBytes sets none
  | calls + 1 => decodeBytes sets (some (decodeNested sets calls))

/-- How many calls can be nested within a charstring. -/
def nestingLimit : Nat := 9

/-- Decodes a charstring. The operator that ends a subroutine makes an instruction in the charstring
itself, where there is no subroutine to end. -/
def decode (sets : SubroutineSets) (charstring : List UInt8) : Except FontFault (List Instruction) :=
  match decodeNested sets nestingLimit charstring {} with
  | .error fault => .error fault
  | .ok (.returned, p) => .ok (p.make (.plain .ret)).instructions
  | .ok (_, p) => .ok p.instructions

end CompactFont.Charstring
