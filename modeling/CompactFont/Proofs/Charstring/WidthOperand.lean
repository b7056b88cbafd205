import CompactFont.Proofs.Charstring.Prefix
import CompactFont.Proofs.Charstring.Width

/-!
# Which operand is the width

A charstring that begins with integers and an operator that clears the stack has the first integer as
its width if there is one more of them than the operator takes, and has no width otherwise
(`head_of_decode`). This is so whatever comes after the operator, and whichever operator it is, but
for a counter mask: there, an operand too many is left as it is (`decode_counterMask`).
-/

namespace CompactFont.Charstring

variable {sets : SubroutineSets} {ns : List Int16} {op : Clearing}

namespace Progress

theorem length_made_operands (values : List Operand) :
    (({} : Progress).operands values).made.length = values.length := by
  rw [made_operands, List.length_append, List.length_reverse, List.length_map]
  rfl

/-- The first integer that was pushed is the last of those made, the latest first. -/
theorem head?_of_made {later : List Instruction} {n : Int32}
    (h : (({} : Progress).operands (ns.map Operand.int)).made = later ++ [.int n]) :
    ∃ m, ns.head? = some m ∧ n = m.toInt32 := by
  have last := congrArg List.getLast? h
  rw [made_operands, List.append_nil, List.getLast?_reverse, List.getLast?_concat,
    List.map_map, List.head?_map] at last
  obtain ⟨m, hm, hn⟩ := Option.map_eq_some_iff.mp last
  exact ⟨m, hm, by cases hn; rfl⟩

theorem pending_of_clear {run : Option (List UInt8 → Progress → Decoded)} {p : Progress}
    {rest : List UInt8} {next : Next} (hp : perform sets run op.token p rest = .ok next) :
    next.progress.pending = 0 := by
  cases op with
  | stem kind =>
    obtain ⟨q, hq, rfl⟩ := map_eq_ok.mp hp
    obtain ⟨r, -, rfl⟩ := stem_eq_ok hq
    rfl
  | mask kind =>
    obtain ⟨q, bytes, left, -, -, rfl⟩ := perform_mask_eq_ok hp
    obtain ⟨new, -, hmask⟩ := exists_mask_eq q kind bytes
    simp only [Next.progress, hmask]
    rfl
  | move kind =>
    obtain ⟨q, hq, rfl⟩ := map_eq_ok.mp hp
    obtain ⟨r, -, hq⟩ := bind_eq_ok.mp hq
    cases hq
    rfl
  | endchar =>
    obtain ⟨q, hq, rfl⟩ := map_eq_ok.mp hp
    obtain ⟨r, -, hq⟩ := bind_eq_ok.mp hq
    cases hq
    rfl

theorem Begins.head? {i : Instruction} {p : Progress} (h : p.Begins [i]) :
    p.instructions.head? = some i := by
  obtain ⟨later, instructions⟩ := h.instructions
  rw [instructions]
  rfl

theorem head?_ne_width {p : Progress} (h : Widthless p.made) (n : Int32) :
    p.instructions.head? ≠ some (.withValue .width n) := fun head => by
  have hi := h _ (List.mem_reverse.mp (List.mem_of_mem_head? head))
  cases hi

end Progress

/-- **The width is the first of the integers** in front if the operator after them carries one, and
only then. Counter masks are left out. -/
theorem head_of_decode {front rest : List UInt8} {list : List Instruction}
    (spelled : Spells ((ns.map Operand.int).map Token.operand ++ [op.token]) front)
    (h : decode sets (front ++ rest) = .ok list) :
    (∃ n, ns.head? = some n ∧ list.head? = some (.withValue .width n.toInt32)) ↔
      op.carriesWidth ns.length = true ∧ op ≠ .mask .counter := by
  obtain ⟨e, p, q, hd, hq, rfl⟩ := decode_eq_ok h
  obtain ⟨left, spelled, pushed⟩ := decodeBytes_operands spelled
  rw [pushed] at hd
  obtain ⟨left, next, -, performed, hd⟩ := exists_perform_of_spells spelled hd
  have fresh := Progress.fresh_start.operands (ns.map .int)
  have took := fresh.clear performed
  rw [Progress.length_made_operands, List.length_map] at took
  rw [← Clearing.takesWidth_iff]
  cases ht : op.takesWidth ns.length with
  | true =>
    rw [ht] at took
    obtain ⟨later, n, new, operands, made, -⟩ := took
    obtain ⟨m, hm, rfl⟩ := Progress.head?_of_made operands
    have begins : next.progress.Begins [.withValue .width m.toInt32] :=
      ⟨new, made, (Progress.pending_of_clear performed).symm ▸ Nat.zero_le _⟩
    have ended := (Progress.invariant_begins (by rintro i ⟨⟩; rfl)).next begins hd
    refine iff_of_true ⟨m, hm, ?_⟩ rfl
    rcases hq with rfl | rfl
    · exact ended.head?
    · exact (ended.make (.plain .ret)).head?
  | false =>
    rw [ht] at took
    refine iff_of_false ?_ Bool.false_ne_true
    rintro ⟨n, hn, head⟩
    have widthless : Widthless p.made := by
      rcases hd with rfl | ⟨r, after, rfl, hd⟩
      · exact took
      rcases fresh.cleared performed with closed | ⟨rfl, few, -⟩
      · rw [← decodeNested_eq] at hd
        exact (Progress.invariant_closed_widthless.decodeNested hd ⟨closed, took⟩).2
      · -- A hint mask takes the only operand that there is.
        rw [Progress.length_made_operands, List.length_map] at few
        have even := of_decide_eq_false ht
        have empty := List.eq_nil_of_length_eq_zero (show ns.length = 0 by omega)
        rw [empty] at hn
        cases hn
    rcases hq with rfl | rfl
    · exact Progress.head?_ne_width widthless _ head
    · exact Progress.head?_ne_width (widthless.cons rfl) _ head

/-- Three integers before stem hints are a width and one stem hint. -/
theorem head_of_decode_hstem :
    let ns : List Int16 := [10, 20, 30]
    let list : List Instruction := [.withValue .width 10, .int 20, .int 30, .plain (.stem .hstem),
      .plain .endchar]
    Spells ((ns.map Operand.int).map Token.operand ++ [Clearing.token (.stem .hstem)])
        [149, 159, 169, 1] ∧
      decode ⟨⟨.empty⟩, none⟩ ([149, 159, 169, 1] ++ [14]) = .ok list ∧
      ((∃ n, ns.head? = some n ∧ list.head? = some (.withValue .width n.toInt32)) ↔
        Clearing.carriesWidth (.stem .hstem) ns.length = true ∧
          Clearing.stem .hstem ≠ .mask .counter) := by
  intro ns list
  have spelled : Spells ((ns.map Operand.int).map Token.operand ++ [Clearing.token (.stem .hstem)])
      [149, 159, 169, 1] := .cons rfl (.cons rfl (.cons rfl (.cons rfl .nil)))
  have decoded : decode ⟨⟨.empty⟩, none⟩ ([149, 159, 169, 1] ++ [14]) = .ok list := by cbv
  exact ⟨spelled, decoded, head_of_decode spelled decoded⟩

/-- Three integers before a counter mask stay as they are. -/
theorem decode_counterMask :
    ¬∀ sets (ns : List Int16) (op : Clearing) front rest list,
      Spells ((ns.map Operand.int).map Token.operand ++ [op.token]) front →
      decode sets (front ++ rest) = .ok list →
      ((∃ n, ns.head? = some n ∧ list.head? = some (.withValue .width n.toInt32)) ↔
        op.carriesWidth ns.length = true) := by
  intro h
  have decoded : decode ⟨⟨.empty⟩, none⟩ ([189, 149, 159, 20] ++ [128, 14]) =
      .ok [.int 50, .int 10, .int 20, .withValue (.mask .counter .one) (-2147483648),
        .plain .endchar] := by cbv
  obtain ⟨n, -, head⟩ := (h _ [50, 10, 20] (.mask .counter) _ _ _
    (.cons rfl (.cons rfl (.cons rfl (.cons rfl .nil)))) decoded).mpr rfl
  cases head

end CompactFont.Charstring
