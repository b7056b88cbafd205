import CompactFont.Proofs.Charstring.Decoded
import CompactFont.Proofs.Charstring.Folding

/-!
# Expanding a compacted list

Expansion undoes folding (`Folds.expand_eq`), so it gives back what compaction was given, up to the
loads that were packed there already. In a list that decoding made there are none, and it comes back
as it was.
-/

namespace CompactFont.Charstring

theorem expand_cons (i : Instruction) (list : List Instruction) :
    expand (i :: list) = i.expand ++ expand list := rfl

theorem expand_append (list list' : List Instruction) :
    expand (list ++ list') = expand list ++ expand list' := List.flatMap_append

/-- A packed load stands for the loads of its integers. -/
theorem Instruction.expand_packed {i : Instruction} (taken : i.taken = .nothing)
    (two : 2 ≤ i.packedOperands.length) : i.expand = i.packedOperands.map .int := by
  unfold Instruction.expand
  rw [taken]
  split
  · rename_i none
    rw [none] at two
    cases two
  · rfl

/-- An instruction that pushes one operand at most stands for itself. -/
theorem Instruction.Unpacked.expand_eq {i : Instruction} (h : i.Unpacked) : i.expand = [i] := by
  obtain ⟨op, taken, value⟩ := i
  obtain ⟨rfl, shorts, fourBytes, threeBytes⟩ := h
  have none : Instruction.packedOperands ⟨op, .nothing, value⟩ = [] := by
    unfold Instruction.packedOperands
    split
    · rename_i hop; exact absurd hop shorts
    · rename_i hop; exact absurd hop fourBytes
    · rename_i hop; exact absurd hop threeBytes
    · rfl
  simp only [Instruction.expand, none]
  rfl

theorem expand_of_unpacked {list : List Instruction} (h : ∀ i ∈ list, i.Unpacked) :
    expand list = list := by
  induction list with
  | nil => rfl
  | cons i list ih =>
    rw [expand_cons, (h i List.mem_cons_self).expand_eq,
      ih fun j hj => h j (List.mem_cons_of_mem i hj)]
    rfl

theorem expand_ints (ns : List Int32) : expand (ns.map .int) = ns.map .int := by
  refine expand_of_unpacked fun i hi => ?_
  obtain ⟨n, -, rfl⟩ := List.mem_map.mp hi
  exact ⟨rfl, nofun, nofun, nofun⟩

/-- A load, and an instruction that can take it over, stand for the same as the two in one. -/
theorem Instruction.expand_take {i j : Instruction} {taken : Taken}
    (load : i.takeable? = some taken) (free : j.takes = true) :
    Instruction.expand ⟨j.op, taken, i.value⟩ = i.expand ++ j.expand := by
  obtain ⟨op, rfl, notLoad, -⟩ := Instruction.takes_eq_true free
  -- the operation is no load, so all that is pushed is what was taken over
  have none (taken : Taken) (n : Int32) : Instruction.packedOperands ⟨op, taken, n⟩ = [] := by
    cases op with
    | load form => cases notLoad
    | _ => rfl
  simp only [Instruction.plain, Instruction.withValue, Instruction.expand, none]
  rcases Instruction.takeable?_eq_some load with ⟨hi, rfl⟩ | ⟨hi, rfl⟩ | ⟨hi, rfl⟩
  · rw [hi]; rfl
  · rw [hi]; rfl
  · rw [hi]; rfl

/-- **Expansion undoes folding.** -/
theorem Folds.expand_eq {list short : List Instruction} (h : Folds list short) :
    expand short = expand list := by
  induction h with
  | nil => rfl
  | keep i _ ih => rw [expand_cons, expand_cons, ih]
  | pack taken operands two _ _ _ ih =>
    subst operands
    rw [expand_cons, expand_append, expand_ints, Instruction.expand_packed taken two, ih]
  | take load takes _ ih =>
    rw [expand_cons, expand_cons, expand_cons, Instruction.expand_take load takes, ih,
      List.append_assoc]

theorem Compactor.expand_fst_compact (c : Compactor) (list : List Instruction) :
    expand (c.compact list).1 = expand list := by
  have first := (c.folds_packRuns list).expand_eq
  have second := (folds_takeLoads (c.packRuns list).written.toList).expand_eq
  exact second.trans first

/-- **Compaction is invertible**: whatever the compactor was used for, the compacted list expands to
what the list itself expands to. A list in which each instruction pushes one operand at most comes
back as it was, and each list that decoding makes is of this kind. -/
theorem expand_compact (c : Compactor) (list : List Instruction) :
    expand (c.compact list).1 = expand list ∧
    ((∀ i ∈ list, i.Unpacked) → expand (c.compact list).1 = list) ∧
    ∀ sets charstring, decode sets charstring = .ok list → ∀ i ∈ list, i.Unpacked := by
  refine ⟨c.expand_fst_compact list, fun unpacked => ?_, fun sets charstring decoded i hi => ?_⟩
  · rw [c.expand_fst_compact, expand_of_unpacked unpacked]
  · exact (decoded_of_decode decoded i hi).unpacked

/-- A glyph with loads at the ends of both ranges, stem hints and a mask: its charstring decodes,
its instructions are compacted to seven, and they come back. -/
theorem expand_compact_edges :
    ∃ list, decode ⟨⟨.empty⟩, none⟩
        [247, 18, 28, 255, 129, 139, 140, 28, 0, 127, 28, 255, 128, 18, 19, 224,
          28, 127, 254, 28, 127, 255, 5, 14] = .ok list ∧
      list.length = 13 ∧ (compact list).length = 7 ∧ expand (compact list) = list := by
  have decoded : decode ⟨⟨.empty⟩, none⟩
      [247, 18, 28, 255, 129, 139, 140, 28, 0, 127, 28, 255, 128, 18, 19, 224,
        28, 127, 254, 28, 127, 255, 5, 14] =
      .ok [.int 126, .int (-127), .int 0, .int 1, .int 127, .int (-128), .plain (.stem .hstemhm),
        .plain (.stem .vstem), .withValue (.mask .hint .one) (-536870912), .int 32766, .int 32767,
        .plain (.draw .rlineto), .plain .endchar] := by cbv
  obtain ⟨-, back, unpacked⟩ := expand_compact .new _
  exact ⟨_, decoded, rfl, by decide, back (unpacked _ _ decoded)⟩

end CompactFont.Charstring
