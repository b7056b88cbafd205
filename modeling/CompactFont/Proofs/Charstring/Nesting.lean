import CompactFont.Proofs.Charstring.Courses
import Mathlib.Logic.Relation

/-!
# How deep calls are nested

Decoding follows a call by decoding the subroutine, and counts how many calls can still be nested. A
machine that executes the same tokens one by one needs no such count: it keeps the bytes to come back to
for each call that is active, as many as there are (`Machine`). It may never come to an end, as subroutines
can call themselves and each other.

The two agree until too many calls are active (`decode_eq_machine`): decoding comes to what the machine
comes to, unless the machine comes upon one more call when nine are active; then decoding fails for that.
With a tenth call it fails even where nothing more is called (`decode_tenCalls`).

Each string of bytes that decoding goes through is one stretch of the machine's course, from its first
byte to the turn that leaves it (`Machine.leads_decodeNested`).
-/

namespace CompactFont.Charstring

open Relation

/-! ### A machine with a stack of calls -/

/-- A charstring that is being executed. -/
structure Machine where
  /-- The bytes to come back to, for each call that is active, the latest first. -/
  returns : List (List UInt8)
  /-- The bytes that are left before that. -/
  bytes : List UInt8
  /-- What is known. -/
  progress : Progress

/-- What a machine does in one turn. -/
inductive Turn where
  /-- It goes on. -/
  | onward (m : Machine)
  /-- It comes to its end. -/
  | finish (result : Except FontFault (List Instruction))

namespace Machine

/-- Nothing was executed yet. -/
def start (charstring : List UInt8) : Machine := ⟨[], charstring, {}⟩

/-- How many calls are active. -/
def depth (m : Machine) : Nat := m.returns.length

/-- What follows the end of some bytes: those after the call, if there was one and the glyph goes on. -/
def leave (returns : List (List UInt8)) : Decoded → Turn
  | .error fault => .finish (.error fault)
  | .ok (.finished, p) => .finish (.ok p.instructions)
  | .ok (e, p) =>
    match returns with
    | [] => .finish (.ok (listOf (e, p)))
    | rest :: returns => .onward ⟨returns, rest, p⟩

/-- What follows a token. -/
def follow (returns : List (List UInt8)) : Except FontFault Next → Turn
  | .error fault => .finish (.error fault)
  | .ok (.go p rest) => .onward ⟨returns, rest, p⟩
  | .ok (.stop e p) => leave returns (.ok (e, p))

/-- The subroutine that is called, and what is known when it starts. -/
def callee (sets : SubroutineSets) (scope : SubrScope) (p : Progress) :
    Except FontFault (List UInt8 × Progress) := do
  let (operand, p) ← p.takeCallOperand
  let subroutines ← sets.get scope
  return (← subroutines.get operand, p)

/-- Executes one token, or leaves bytes of which none is left. -/
def turn (sets : SubroutineSets) (m : Machine) : Turn :=
  match m.bytes with
  | [] => leave m.returns (.ok (.exhausted, m.progress))
  | b :: bytes =>
    match Token.readAfter b bytes with
    | .error fault => .finish (.error (.read fault))
    | .ok (.call scope, rest) =>
      match callee sets scope m.progress with
      | .error fault => .finish (.error fault)
      | .ok (subroutine, p) => .onward ⟨rest :: m.returns, subroutine, p⟩
    | .ok (token, rest) => follow m.returns (perform sets none token m.progress rest)

/-- A call is next, after the integer that it takes, and there are subroutines to select from. -/
def calls (sets : SubroutineSets) (m : Machine) : Bool :=
  match m.bytes with
  | [] => false
  | b :: bytes =>
    match Token.readAfter b bytes with
    | .ok (.call scope, _) => m.progress.takeCallOperand.isOk && (sets.get scope).isOk
    | _ => false

/-- It gets from here to there, in any number of turns. -/
def Reaches (sets : SubroutineSets) : Machine → Machine → Prop :=
  ReflTransGen fun m m' => m.turn sets = .onward m'

end Machine

/-- The charstring comes upon a call while so many calls are active. -/
def CallsWithin (sets : SubroutineSets) (charstring : List UInt8) (depth : Nat) : Prop :=
  ∃ m, Machine.Reaches sets (.start charstring) m ∧ m.calls sets = true ∧ m.depth = depth

/-- The charstring comes to a result, however many calls are active meanwhile. -/
def ComesTo (sets : SubroutineSets) (charstring : List UInt8)
    (result : Except FontFault (List Instruction)) : Prop :=
  ∃ m, Machine.Reaches sets (.start charstring) m ∧ m.turn sets = .finish result

/-! ### Stretches of a course -/

namespace Machine

variable {sets : SubroutineSets} {limit : Nat}

/-- A call is next, and as many calls are active as can be. -/
def AtLimit (sets : SubroutineSets) (limit : Nat) (m : Machine) : Prop :=
  m.calls sets = true ∧ m.depth = limit

theorem not_atLimit_of_calls {m : Machine} (h : m.calls sets = false) : ¬m.AtLimit sets limit :=
  fun full => Bool.false_ne_true (h.symm.trans full.1)

/-- From a machine on, with no call at the limit, it comes to a turn; or to a call at the limit, and so to
the fault. -/
inductive Leads (sets : SubroutineSets) (limit : Nat) : Machine → Turn → Prop where
  /-- The turn is the next one. -/
  | here {m : Machine} {t : Turn} (low : ¬m.AtLimit sets limit) (turn : m.turn sets = t) :
      Leads sets limit m t
  /-- It comes later. -/
  | onward {m m' : Machine} {t : Turn} (low : ¬m.AtLimit sets limit)
      (turn : m.turn sets = .onward m') (next : Leads sets limit m' t) : Leads sets limit m t
  /-- There is a call at the limit. -/
  | tooDeep {m : Machine} (full : m.AtLimit sets limit) :
      Leads sets limit m (.finish (.error .nestedTooDeeply))

theorem Leads.trans {m m' : Machine} {t : Turn} (h : Leads sets limit m (.onward m'))
    (next : Leads sets limit m' t) : Leads sets limit m t := by
  generalize ht : Turn.onward m' = t' at h
  induction h with
  | here low turn => exact .onward low (turn.trans ht.symm) next
  | onward low turn _ ih => exact .onward low turn (ih ht)
  | tooDeep => cases ht

/-! ### Turns -/

section

variable {returns : List (List UInt8)} {b : UInt8} {bytes rest : List UInt8} {p : Progress}

theorem leads_unread {fault : ReadFault} (read : Token.readAfter b bytes = .error fault) :
    Leads sets limit ⟨returns, b :: bytes, p⟩ (.finish (.error (.read fault))) := by
  have turn : turn sets ⟨returns, b :: bytes, p⟩ = .finish (.error (.read fault)) := by
    simp only [Machine.turn, read]
  exact .here (not_atLimit_of_calls (by simp only [calls, read])) turn

/-- A token that is no call is performed in one turn. -/
theorem leads_token {run : Option (List UInt8 → Progress → Decoded)} {token : Token}
    (read : Token.readAfter b bytes = .ok (token, rest)) (noCall : token.isCall = false) :
    Leads sets limit ⟨returns, b :: bytes, p⟩ (follow returns (perform sets run token p rest)) := by
  have turn : turn sets ⟨returns, b :: bytes, p⟩ = follow returns (perform sets run token p rest) := by
    cases token with
    | call scope => cases noCall
    | _ => simp only [Machine.turn, read]; rfl
  have calls : calls sets ⟨returns, b :: bytes, p⟩ = false := by
    cases token with
    | call scope => cases noCall
    | _ => simp only [Machine.calls, read]
  exact .here (not_atLimit_of_calls calls) turn

/-- What decodes the bytes of subroutines that are called while so many calls are active: nothing at the
limit, and otherwise what a stretch of the course comes to. -/
def RunLeads (sets : SubroutineSets) (limit depth : Nat) :
    Option (List UInt8 → Progress → Decoded) → Prop
  | none => depth = limit
  | some f => depth ≠ limit ∧ ∀ returns bytes p, returns.length = depth + 1 →
      Leads sets limit ⟨returns, bytes, p⟩ (leave returns (f bytes p))

/-- A call that can be nested is one of the subroutine that the machine calls. -/
theorem call_some (sets : SubroutineSets) (f : List UInt8 → Progress → Decoded) (scope : SubrScope)
    (p : Progress) :
    call sets (some f) scope p = callee sets scope p >>= fun called => f called.1 called.2 := by
  simp only [call, callee]
  cases p.takeCallOperand with
  | error fault => rfl
  | ok taken =>
    cases sets.get scope with
    | error fault => rfl
    | ok subroutines =>
      cases found : subroutines.get taken.1 with
      | error fault => simp only [found, bind, Except.bind]
      | ok subroutine => simp only [found, bind, Except.bind]; rfl

/-- A call that cannot be nested fails for that, if it would be followed up to the choice of a subroutine,
and otherwise as the machine does. -/
theorem call_none (sets : SubroutineSets) (scope : SubrScope) (p : Progress) :
    (p.takeCallOperand.isOk && (sets.get scope).isOk) = true ∧
        call sets none scope p = .error .nestedTooDeeply ∨
      (p.takeCallOperand.isOk && (sets.get scope).isOk) = false ∧
        ∃ fault, call sets none scope p = .error fault ∧ callee sets scope p = .error fault := by
  simp only [call, callee]
  cases p.takeCallOperand with
  | error fault => exact .inr ⟨rfl, fault, rfl, rfl⟩
  | ok taken =>
    cases sets.get scope with
    | error fault => exact .inr ⟨rfl, fault, rfl, rfl⟩
    | ok subroutines => exact .inl ⟨rfl, rfl⟩

theorem calls_of_call {scope : SubrScope} (read : Token.readAfter b bytes = .ok (.call scope, rest)) :
    calls sets ⟨returns, b :: bytes, p⟩ = (p.takeCallOperand.isOk && (sets.get scope).isOk) := by
  simp only [Machine.calls, read]

/-- A call that fails before its subroutine starts is one turn. -/
theorem leads_call_error {run : Option (List UInt8 → Progress → Decoded)} {scope : SubrScope}
    {fault : FontFault} (read : Token.readAfter b bytes = .ok (.call scope, rest))
    (low : ¬AtLimit sets limit ⟨returns, b :: bytes, p⟩) (called : callee sets scope p = .error fault)
    (same : call sets run scope p = .error fault) :
    Leads sets limit ⟨returns, b :: bytes, p⟩
      (follow returns (perform sets run (.call scope) p rest)) := by
  have turn : turn sets ⟨returns, b :: bytes, p⟩ = .finish (.error fault) := by
    simp only [Machine.turn, read, called]
  have performed : perform sets run (.call scope) p rest = .error fault := by
    simp only [perform, same]
  rw [performed]
  exact .here low turn

/-- A call leads into its subroutine, unless there is none of its number. -/
theorem turn_of_calls (m : Machine) (h : m.calls sets = true) :
    (∃ m', m.turn sets = .onward m' ∧ m'.depth = m.depth + 1) ∨
      m.turn sets = .finish (.error .noSuchSubroutine) := by
  obtain ⟨returns, bytes, p⟩ := m
  cases bytes with
  | nil => cases h
  | cons b bytes =>
    simp only [calls] at h
    split at h
    case h_2 => cases h
    case h_1 scope rest read =>
      obtain ⟨operand, known⟩ := Bool.and_eq_true_iff.mp h
      cases taken : p.takeCallOperand with
      | error fault => simp [taken, Except.isOk, Except.toBool] at operand
      | ok left =>
        cases found : sets.get scope with
        | error fault => simp [found, Except.isOk, Except.toBool] at known
        | ok subroutines =>
          cases selected : subroutines.get left.1 with
          | ok subroutine =>
            have called : callee sets scope p = .ok (subroutine, left.2) := by
              simp only [callee, taken, found, bind, Except.bind, selected]
              rfl
            exact .inl ⟨⟨rest :: returns, subroutine, left.2⟩, by simp only [turn, read, called], rfl⟩
          | error fault =>
            have called : callee sets scope p = .error fault := by
              simp only [callee, taken, found, bind, Except.bind, selected]
            obtain rfl : fault = .noSuchSubroutine := by
              unfold Subroutines.get at selected
              split at selected
              · cases selected
              · cases selected
                rfl
            exact .inr (by simp only [turn, read, called])

/-- What follows a call is what follows the end of its subroutine. -/
theorem follow_perform_call {f : List UInt8 → Progress → Decoded} {scope : SubrScope}
    {called : List UInt8 × Progress} (h : callee sets scope p = .ok called) :
    follow returns (perform sets (some f) (.call scope) p rest) =
      leave (rest :: returns) (f called.1 called.2) := by
  simp only [perform, call_some, h, bind, Except.bind]
  rcases f called.1 called.2 with fault | ⟨e, q⟩
  · rfl
  · cases e <;> rfl

/-- A call is followed up to where its subroutine ends. -/
theorem leads_call {run : Option (List UInt8 → Progress → Decoded)} {scope : SubrScope}
    (runs : RunLeads sets limit returns.length run)
    (read : Token.readAfter b bytes = .ok (.call scope, rest)) :
    Leads sets limit ⟨returns, b :: bytes, p⟩
      (follow returns (perform sets run (.call scope) p rest)) := by
  cases run with
  | none =>
    rcases call_none sets scope p with ⟨next, same⟩ | ⟨notNext, fault, same, called⟩
    · have performed : perform sets none (.call scope) p rest = .error .nestedTooDeeply := by
        simp only [perform, same]
      rw [performed]
      exact .tooDeep ⟨(calls_of_call read).trans next, runs⟩
    · exact leads_call_error read (not_atLimit_of_calls ((calls_of_call read).trans notNext)) called same
  | some f =>
    obtain ⟨notFull, stretch⟩ := runs
    have low : ¬AtLimit sets limit ⟨returns, b :: bytes, p⟩ := fun full => notFull full.2
    cases called : callee sets scope p with
    | error fault =>
      have same : call sets (some f) scope p = .error fault := by
        rw [call_some, called]
        rfl
      exact leads_call_error read low called same
    | ok subroutine =>
      have turn : turn sets ⟨returns, b :: bytes, p⟩ =
          .onward ⟨rest :: returns, subroutine.1, subroutine.2⟩ := by
        simp only [Machine.turn, read, called]
      rw [follow_perform_call called]
      exact .onward low turn (stretch (rest :: returns) subroutine.1 subroutine.2 rfl)

end

/-- A string of bytes is a stretch of the course, up to what follows its end. -/
theorem leads_decodeBytes {run : Option (List UInt8 → Progress → Decoded)}
    {returns : List (List UInt8)} (runs : RunLeads sets limit returns.length run)
    (bytes : List UInt8) (p : Progress) :
    Leads sets limit ⟨returns, bytes, p⟩ (leave returns (decodeBytes sets run bytes p)) := by
  -- Each token leads to what follows it; the induction joins these stretches to one.
  have performed {b : UInt8} {bytes rest : List UInt8} {token : Token} {p : Progress}
      (read : Token.readAfter b bytes = .ok (token, rest)) :
      Leads sets limit ⟨returns, b :: bytes, p⟩ (follow returns (perform sets run token p rest)) := by
    cases hc : token.isCall with
    | false => exact leads_token read hc
    | true =>
      obtain ⟨scope, rfl⟩ := Token.isCall_eq_true hc
      exact leads_call runs read
  fun_induction decodeBytes sets run bytes p with
  | case1 p => exact .here (not_atLimit_of_calls rfl) rfl
  | case2 p b bytes fault ht => exact leads_unread ht
  | case3 p b bytes token rest ht fault hn =>
    have stretch := performed (p := p) ht
    rw [hn] at stretch
    exact stretch
  | case4 p b bytes token rest ht e q hn =>
    have stretch := performed (p := p) ht
    rw [hn] at stretch
    exact stretch
  | case5 p b bytes token rest ht q left hn _ _ ih =>
    have stretch := performed (p := p) ht
    rw [hn] at stretch
    exact stretch.trans ih

/-- So it is where calls are followed in turn, until there are as many as can be. -/
theorem leads_decodeNested {calls : Nat} {returns : List (List UInt8)}
    (depth : returns.length + calls = limit) (bytes : List UInt8) (p : Progress) :
    Leads sets limit ⟨returns, bytes, p⟩ (leave returns (decodeNested sets calls bytes p)) := by
  -- The induction is on how many calls can still be nested. With none left, a call is at the limit.
  induction calls generalizing returns bytes p with
  | zero =>
    have runs : RunLeads sets limit returns.length none := depth
    exact leads_decodeBytes runs bytes p
  | succ calls ih =>
    have runs : RunLeads sets limit returns.length (some (decodeNested sets calls)) :=
      ⟨by omega, fun returns' bytes p length => ih (by omega) bytes p⟩
    exact leads_decodeBytes runs bytes p

end Machine

/-! ### Faults of single tokens -/

/-- It does not fail for the nesting of calls. -/
def Shallow {α : Type} (x : Except FontFault α) : Prop := x ≠ .error .nestedTooDeeply

section

variable {α β : Type} {x : Except FontFault α}

theorem shallow_ok (a : α) : Shallow (.ok a) := by
  intro deep
  cases deep

theorem shallow_error {fault : FontFault} (other : fault ≠ .nestedTooDeeply) :
    Shallow (.error fault : Except FontFault α) :=
  fun deep => other (Except.error.inj deep)

theorem Shallow.bind {f : α → Except FontFault β} (h : Shallow x) (each : ∀ a, Shallow (f a)) :
    Shallow (x >>= f) := by
  cases x with
  | error fault =>
    intro deep
    cases deep
    exact h rfl
  | ok a => exact each a

theorem Shallow.map (h : Shallow x) (f : α → β) : Shallow (f <$> x) := by
  cases x with
  | error fault =>
    intro deep
    cases deep
    exact h rfl
  | ok a => exact shallow_ok (f a)

end

namespace Progress

theorem shallow_takeWidth (p : Progress) : Shallow p.takeWidth := by
  unfold takeWidth
  repeat' split
  all_goals first | exact shallow_ok _ | exact shallow_error (by decide)

theorem shallow_takeWidthIf (p : Progress) (condition : Bool) : Shallow (p.takeWidthIf condition) := by
  cases condition with
  | true => exact p.shallow_takeWidth
  | false => exact shallow_ok p

theorem shallow_takeStemWidth (p : Progress) : Shallow p.takeStemWidth :=
  p.shallow_takeWidth.bind fun _ => shallow_ok _

theorem shallow_escaped (p : Progress) (operator : Escaped) : Shallow (p.escaped operator) := by
  cases operator with
  | undefined => exact shallow_error (by decide)
  | _ => exact shallow_ok _

theorem shallow_stem (p : Progress) (kind : Stem) : Shallow (p.stem kind) := by
  simp only [stem]
  split
  · split
    · exact shallow_error (by decide)
    · exact p.shallow_takeStemWidth.bind fun _ => shallow_ok _
  · exact shallow_ok _

theorem shallow_move (p : Progress) (kind : Move) : Shallow (p.move kind) :=
  (p.shallow_takeWidthIf _).bind fun _ => shallow_ok _

theorem shallow_endchar (p : Progress) : Shallow p.endchar :=
  (p.shallow_takeWidthIf _).bind fun _ => shallow_ok _

theorem shallow_stemsForMask (p : Progress) (kind : MaskKind) : Shallow (p.stemsForMask kind) := by
  cases kind with
  | hint =>
    simp only [stemsForMask, stemsForHintMask]
    split
    · split
      · exact shallow_error (by decide)
      · split
        · exact (shallow_takeStemWidth _).bind fun _ => shallow_ok _
        · exact shallow_ok _
    · exact shallow_ok _
  | counter =>
    simp only [stemsForMask, stemsForCounterMask]
    split
    · exact shallow_error (by decide)
    · exact shallow_ok _

theorem shallow_takeCallOperand (p : Progress) : Shallow p.takeCallOperand := by
  unfold takeCallOperand
  repeat' split
  all_goals first | exact shallow_ok _ | exact shallow_error (by decide)

end Progress

theorem SubroutineSets.shallow_get (sets : SubroutineSets) (scope : SubrScope) :
    Shallow (sets.get scope) := by
  unfold SubroutineSets.get
  repeat' split
  all_goals first | exact shallow_ok _ | exact shallow_error (by decide)

theorem Subroutines.shallow_get (s : Subroutines) (operand : Int32) : Shallow (s.get operand) := by
  simp only [Subroutines.get]
  repeat' split
  all_goals first | exact shallow_ok _ | exact shallow_error (by decide)

theorem shallow_perform (sets : SubroutineSets) (run : Option (List UInt8 → Progress → Decoded))
    {token : Token} (noCall : token.isCall = false) (p : Progress) (rest : List UInt8) :
    Shallow (perform sets run token p rest) := by
  cases token with
  | escaped operator => exact (p.shallow_escaped operator).map _
  | stem kind => exact (p.shallow_stem kind).map _
  | move kind => exact (p.shallow_move kind).map _
  | mask kind =>
    have stems := p.shallow_stemsForMask kind
    simp only [perform]
    split
    · rename_i fault same
      exact shallow_error fun deep => stems (deep ▸ same)
    · split
      · exact shallow_error (by decide)
      · exact shallow_ok _
  | endchar => exact p.shallow_endchar.map _
  | call scope => cases noCall
  | operand _ | reserved | draw _ | ret => exact shallow_ok _

/-- A subroutine is chosen without regard to how many calls are active. -/
theorem Machine.shallow_callee (sets : SubroutineSets) (scope : SubrScope) (p : Progress) :
    Shallow (callee sets scope p) :=
  p.shallow_takeCallOperand.bind fun taken =>
    (sets.shallow_get scope).bind fun subroutines =>
      (subroutines.shallow_get taken.1).bind fun _ => shallow_ok _

/-- The machine does not fail for the nesting of calls. -/
theorem Machine.turn_ne_nestedTooDeeply (sets : SubroutineSets) (m : Machine) :
    m.turn sets ≠ .finish (.error .nestedTooDeeply) := by
  have left (returns : List (List UInt8)) (e : Ending) (p : Progress) :
      leave returns (.ok (e, p)) ≠ .finish (.error .nestedTooDeeply) := by
    intro deep
    cases e <;> cases returns <;> cases deep
  unfold turn
  split
  · exact left _ _ _
  · split
    · intro deep
      cases deep
    · rename_i scope rest read
      have shallow := shallow_callee sets scope m.progress
      split
      · rename_i fault same
        intro deep
        cases deep
        exact shallow same
      · intro deep
        cases deep
    · rename_i token rest notCall read
      have noCall : token.isCall = false := by
        cases token with
        | call scope => exact absurd rfl (notCall scope)
        | _ => rfl
      have shallow := shallow_perform sets none noCall m.progress rest
      unfold follow
      split
      · rename_i fault same
        intro deep
        cases deep
        exact shallow same
      · intro deep
        cases deep
      · exact left _ _ _

namespace Machine

variable {sets : SubroutineSets} {limit : Nat}

/-! ### Where a course comes to -/

/-- A machine that goes on gets nowhere but through the next one. -/
theorem Reaches.of_onward {m m' x : Machine} (h : Reaches sets m x) (turn : m.turn sets = .onward m') :
    x = m ∨ Reaches sets m' x := by
  rcases ReflTransGen.cases_head h with rfl | ⟨next, step, h⟩
  · exact .inl rfl
  · cases turn.symm.trans step
    exact .inr h

/-- A machine that comes to its end gets nowhere else. -/
theorem Reaches.of_finish {m x : Machine} {result : Except FontFault (List Instruction)}
    (h : Reaches sets m x) (turn : m.turn sets = .finish result) : x = m := by
  rcases ReflTransGen.cases_head h with rfl | ⟨next, step, -⟩
  · rfl
  · cases turn.symm.trans step

/-- A machine comes to one result at most. -/
theorem Reaches.finish_unique {m x y : Machine} {result result' : Except FontFault (List Instruction)}
    (hx : Reaches sets m x) (hy : Reaches sets m y) (turn : x.turn sets = .finish result)
    (turn' : y.turn sets = .finish result') : result = result' := by
  have same : x = y := by
    rcases ReflTransGen.total_of_right_unique (fun _ _ _ h h' => Turn.onward.inj (h.symm.trans h'))
      hx hy with h | h
    · exact (Reaches.of_finish h turn).symm
    · exact Reaches.of_finish h turn'
  rw [same, turn'] at turn
  cases turn
  rfl

/-- A course to a result either comes upon a call at the limit, or it is the course of the machine. -/
theorem Leads.reaches {m : Machine} {result : Except FontFault (List Instruction)}
    (h : Leads sets limit m (.finish result)) :
    (∃ x, Reaches sets m x ∧ x.AtLimit sets limit) ∧ result = .error .nestedTooDeeply ∨
      (∀ x, Reaches sets m x → ¬x.AtLimit sets limit) ∧
        ∃ x, Reaches sets m x ∧ x.turn sets = .finish result := by
  generalize ht : Turn.finish result = t at h
  induction h with
  | @here m t low turn =>
    subst ht
    exact .inr ⟨fun x hx => hx.of_finish turn ▸ low, m, .refl, turn⟩
  | @onward m m' t low turn _ ih =>
    rcases ih ht with ⟨⟨x, hx, full⟩, fault⟩ | ⟨never, x, hx, last⟩
    · exact .inl ⟨⟨x, .head turn hx, full⟩, fault⟩
    · refine .inr ⟨fun y hy => ?_, x, .head turn hx, last⟩
      rcases hy.of_onward turn with rfl | hy
      · exact low
      · exact never y hy
  | @tooDeep m full =>
    cases ht
    exact .inl ⟨⟨m, .refl, full⟩, rfl⟩

end Machine

/-! ### Decoding and the machine -/

/-- Decoding fails where a call comes upon the limit, and comes to what the machine comes to otherwise. -/
theorem decode_course (sets : SubroutineSets) (charstring : List UInt8) :
    CallsWithin sets charstring nestingLimit ∧ decode sets charstring = .error .nestedTooDeeply ∨
      ¬CallsWithin sets charstring nestingLimit ∧ ComesTo sets charstring (decode sets charstring) := by
  have course : Machine.Leads sets nestingLimit (.start charstring)
      (.finish (decode sets charstring)) := by
    have stretch : Machine.Leads sets nestingLimit (.start charstring)
        (Machine.leave [] (decodeNested sets nestingLimit charstring {})) :=
      Machine.leads_decodeNested (Nat.zero_add _) charstring {}
    rw [decode_eq_map]
    revert stretch
    rcases decodeNested sets nestingLimit charstring {} with fault | ⟨e, p⟩
    · exact id
    · cases e <;> exact id
  rcases course.reaches with deep | ⟨never, last⟩
  · exact .inl deep
  · exact .inr ⟨fun ⟨m, reached, full⟩ => never m reached full, last⟩

/-- **Decoding follows calls like a machine that has room for any number of them**, as long as at most
nine are active. It fails for the nesting of calls just when the machine comes upon one more call, with
the integer that it takes and with subroutines to select from, while nine are active. Otherwise it comes
to the result that the machine comes to; and at every call that it comes upon, the machine goes into the
subroutine, with one more call active, unless there is no such subroutine. -/
theorem decode_eq_machine (sets : SubroutineSets) (charstring : List UInt8) :
    nestingLimit = 9 ∧
      (decode sets charstring = .error .nestedTooDeeply ↔ CallsWithin sets charstring 9) ∧
      (∀ result, decode sets charstring = result ∧ result ≠ .error .nestedTooDeeply ↔
        ComesTo sets charstring result ∧ ¬CallsWithin sets charstring 9) ∧
      ∀ m, Machine.Reaches sets (.start charstring) m → m.calls sets = true →
        (∃ m', m.turn sets = .onward m' ∧ m'.depth = m.depth + 1) ∨
          m.turn sets = .finish (.error .noSuchSubroutine) := by
  refine ⟨rfl, ?_⟩
  rw [← and_assoc]
  refine ⟨?_, fun m _ => m.turn_of_calls⟩
  rcases decode_course sets charstring with ⟨deep, fault⟩ | ⟨notDeep, last⟩
  · refine ⟨iff_of_true fault deep, fun result => iff_of_false ?_ fun h => h.2 deep⟩
    rintro ⟨rfl, notFault⟩
    exact notFault fault
  · have shallow : decode sets charstring ≠ .error .nestedTooDeeply := by
      obtain ⟨m, -, turn⟩ := last
      exact fun fault => m.turn_ne_nestedTooDeeply sets (turn.trans (congrArg Turn.finish fault))
    refine ⟨iff_of_false shallow notDeep, fun result => ⟨?_, ?_⟩⟩
    · rintro ⟨rfl, -⟩
      exact ⟨last, notDeep⟩
    · rintro ⟨⟨m, reached, turn⟩, -⟩
      obtain ⟨m', reached', turn'⟩ := last
      obtain rfl := Machine.Reaches.finish_unique reached' reached turn' turn
      exact ⟨rfl, shallow⟩

/-! ### Too many calls by one -/

namespace Machine

variable {sets : SubroutineSets} {limit : Nat}

/-- Whether it comes upon a call at the limit, if that is known after so many turns. -/
def comesToLimit (sets : SubroutineSets) (limit : Nat) : (turns : Nat) → Machine → Option Bool
  | 0, _ => none
  | turns + 1, m =>
    if m.calls sets && m.depth == limit then some true
    else
      match m.turn sets with
      | .finish _ => some false
      | .onward m' => comesToLimit sets limit turns m'

theorem atLimit_iff_of_comesToLimit {turns : Nat} {m : Machine} {answer : Bool}
    (h : m.comesToLimit sets limit turns = some answer) :
    (∃ x, Reaches sets m x ∧ x.AtLimit sets limit) ↔ answer = true := by
  induction turns generalizing m with
  | zero => cases h
  | succ turns ih =>
    have full : m.AtLimit sets limit ↔ (m.calls sets && m.depth == limit) = true := by
      simp only [AtLimit, Bool.and_eq_true, beq_iff_eq]
    simp only [comesToLimit] at h
    split at h
    · rename_i here
      cases h
      exact iff_of_true ⟨m, .refl, full.mpr here⟩ rfl
    · rename_i low
      rw [← full] at low
      cases turn : m.turn sets with
      | finish result =>
        rw [turn] at h
        cases h
        refine iff_of_false ?_ Bool.false_ne_true
        rintro ⟨x, reached, deep⟩
        exact low (reached.of_finish turn ▸ deep)
      | onward m' =>
        rw [turn] at h
        rw [← ih h]
        constructor
        · rintro ⟨x, reached, deep⟩
          rcases reached.of_onward turn with rfl | reached
          · exact absurd deep low
          · exact ⟨x, reached, deep⟩
        · rintro ⟨x, reached, deep⟩
          exact ⟨x, .head turn reached, deep⟩

/-- The list of instructions, if it comes to one within so many turns. -/
def list? (sets : SubroutineSets) : (turns : Nat) → Machine → Option (List Instruction)
  | 0, _ => none
  | turns + 1, m =>
    match m.turn sets with
    | .finish result => result.toOption
    | .onward m' => list? sets turns m'

theorem reaches_of_list? {turns : Nat} {m : Machine} {list : List Instruction}
    (h : m.list? sets turns = some list) : ∃ x, Reaches sets m x ∧ x.turn sets = .finish (.ok list) := by
  induction turns generalizing m with
  | zero => cases h
  | succ turns ih =>
    simp only [list?] at h
    cases turn : m.turn sets with
    | finish result =>
      rw [turn] at h
      cases result with
      | error fault => cases h
      | ok list =>
        cases h
        exact ⟨m, .refl, turn⟩
    | onward m' =>
      rw [turn] at h
      obtain ⟨x, reached, last⟩ := ih h
      exact ⟨x, .head turn reached, last⟩

end Machine

/-- Nine subroutines, each of which calls the next one, and the last one ends the glyph. The ninth call
comes while eight are active, and it is followed. -/
theorem decode_eq_machine_nineCalls :
    let sets : SubroutineSets := ⟨⟨⟨#[1, 3, 5, 7, 9, 11, 13, 15, 17, 18],
      #[33, 29, 34, 29, 35, 29, 36, 29, 37, 29, 38, 29, 39, 29, 40, 29, 14]⟩⟩, none⟩
    CallsWithin sets [32, 29] 8 ∧ ¬CallsWithin sets [32, 29] 9 ∧
      ComesTo sets [32, 29] (.ok [.plain .endchar]) ∧ decode sets [32, 29] = .ok [.plain .endchar] := by
  intro sets
  obtain ⟨-, -, comes, -⟩ := decode_eq_machine sets [32, 29]
  have calls : (Machine.start [32, 29]).comesToLimit sets 8 20 = some true := by decide +kernel
  have ends : (Machine.start [32, 29]).comesToLimit sets 9 20 = some false := by decide +kernel
  have list : (Machine.start [32, 29]).list? sets 20 = some [.plain .endchar] := by decide +kernel
  have eight : CallsWithin sets [32, 29] 8 := (Machine.atLimit_iff_of_comesToLimit calls).mpr rfl
  have notNine : ¬CallsWithin sets [32, 29] 9 := fun ninth =>
    Bool.false_ne_true ((Machine.atLimit_iff_of_comesToLimit ends).mp ninth)
  have last : ComesTo sets [32, 29] (.ok [.plain .endchar]) := Machine.reaches_of_list? list
  exact ⟨eight, notNine, last, ((comes _).mpr ⟨last, notNine⟩).1⟩

/-- Ten subroutines, each of which calls the next one, and the last one ends the glyph. Ten calls are
active there and none follows, yet decoding fails for their nesting. -/
theorem decode_tenCalls :
    let sets : SubroutineSets := ⟨⟨⟨#[1, 3, 5, 7, 9, 11, 13, 15, 17, 19, 20],
      #[33, 29, 34, 29, 35, 29, 36, 29, 37, 29, 38, 29, 39, 29, 40, 29, 41, 29, 14]⟩⟩, none⟩
    decode sets [32, 29] = .error .nestedTooDeeply ∧ ¬CallsWithin sets [32, 29] 10 := by
  intro sets
  have calls : (Machine.start [32, 29]).comesToLimit sets nestingLimit 22 = some true := by decide +kernel
  have ends : (Machine.start [32, 29]).comesToLimit sets 10 22 = some false := by decide +kernel
  have nine : CallsWithin sets [32, 29] nestingLimit := (Machine.atLimit_iff_of_comesToLimit calls).mpr rfl
  have ten : ¬CallsWithin sets [32, 29] 10 := fun tenth =>
    Bool.false_ne_true ((Machine.atLimit_iff_of_comesToLimit ends).mp tenth)
  rcases decode_course sets [32, 29] with ⟨-, fault⟩ | ⟨notNine, -⟩
  · exact ⟨fault, ten⟩
  · exact absurd nine notNine

end CompactFont.Charstring
