/-
  QuantumProgram — where the sort stops.

  In a sorted list no operation may pass the one before it, whatever predicate
  is asked and whether it is symmetric or not (`isChain_sortOperations`); on such
  a list the sort does nothing (`sortWithStats_of_isChain`).  Every operation that
  moves takes away inversions of keys, so that one is left unchanged only if none
  moves (`inversions_sortOperations_le`).
-/
import QuantumProgram.Proofs.Equality
import QuantumProgram.Proofs.StableSort

namespace QuantumProgram

/-- The number of pairs in a list of which the second has the smaller key. -/
def inversions : List Operation → ℕ
  | [] => 0
  | op :: rest => rest.countP (·.keyLt op) + inversions rest

/-- Keys alone decide on inversions. -/
theorem inversions_congr {ops ops' : List Operation}
    (h : ops.map Operation.sortKey = ops'.map Operation.sortKey) :
    inversions ops = inversions ops' := by
  have hcount (l : List Operation) (op : Operation) : l.countP (·.keyLt op) =
      (l.map Operation.sortKey).countP fun key => compare key op.sortKey = .lt := by
    rw [List.countP_map]
    rfl
  induction ops generalizing ops' with
  | nil => rw [List.map_eq_nil_iff.1 h.symm]
  | cons op rest ih =>
    obtain ⟨op', rest', rfl, hop, hrest⟩ := List.map_eq_cons_iff.1 h.symm
    rw [inversions, inversions, hcount, hcount, hop, hrest, ih hrest.symm]

/-- An operation that goes in front of others with greater keys takes away one
    inversion for each of them. -/
theorem inversions_insert (before after : List Operation) {op : Operation}
    (h : ∀ o ∈ after, op.keyLt o = true) :
    inversions (before ++ op :: after) + after.length =
      inversions (before ++ after) + (before ++ after).countP (op.keyLt ·) := by
  induction before with
  | nil =>
    have hnone : after.countP (·.keyLt op) = 0 :=
      List.countP_eq_zero.2 fun o ho => by simp [Operation.keyLt_asymm (h o ho)]
    have hall : after.countP (op.keyLt ·) = after.length := List.countP_eq_length.2 h
    rw [List.nil_append, List.nil_append, inversions, hnone, hall, Nat.zero_add]
  | cons o before ih =>
    simp only [List.cons_append, inversions, List.countP_append, List.countP_cons] at ih ⊢
    omega

namespace Sorting

variable {commutes : Commutation}

theorem sortWithStats_concat (ops : List Operation) (op : Operation) :
    sortWithStats commutes (ops ++ [op]) =
      ((insertBack commutes op (sortOperations commutes ops).reverse).reverse,
        { operations := (sortWithStats commutes ops).2.operations + 1
          moved := (sortWithStats commutes ops).2.moved +
            if moves commutes op (sortOperations commutes ops).reverse then 1 else 0 }) := by
  simp only [sortWithStats, sortOperations, List.foldl_append, List.foldl_cons, List.foldl_nil,
    step, List.reverse_reverse]
  split_ifs <;> rfl

theorem insertBack_of_not_moves {op : Operation} {reversed : List Operation}
    (h : moves commutes op reversed = false) :
    insertBack commutes op reversed = op :: reversed := by
  cases reversed with
  | nil => rfl
  | cons tail rest =>
    have hpass : passes commutes tail op = false := h
    rw [insertBack, hpass, if_neg Bool.false_ne_true]

/-! ## The result is a local optimum -/

/-- No operation may pass the next one. -/
def Stuck (commutes : Commutation) (a b : Operation) : Prop := passes commutes a b = false

theorem head?_insertBack (op : Operation) (reversed : List Operation) :
    (insertBack commutes op reversed).head? =
      if moves commutes op reversed then reversed.head? else some op := by
  cases reversed with
  | nil => rfl
  | cons tail rest =>
    rw [insertBack, moves]
    split_ifs <;> rfl

/-- Putting an operation at its place leaves nothing to do. -/
theorem isChain_insertBack {op : Operation} {reversed : List Operation}
    (h : reversed.IsChain fun a b => Stuck commutes b a) :
    (insertBack commutes op reversed).IsChain fun a b => Stuck commutes b a := by
  induction reversed with
  | nil => exact .singleton op
  | cons tail rest ih =>
    obtain ⟨htail, hrest⟩ := List.isChain_cons.1 h
    rw [insertBack]
    split_ifs with hpass
    · refine List.isChain_cons.2 ⟨fun o ho => ?_, ih hrest⟩
      rw [head?_insertBack] at ho
      split_ifs at ho
      · exact htail o ho
      -- the operation that came later has the smaller key
      · obtain rfl := Option.some.inj ho
        rw [passes, Bool.and_eq_true] at hpass
        rw [Stuck, passes, Operation.keyLt_asymm hpass.1, Bool.false_and]
    · refine List.isChain_cons.2 ⟨fun o ho => ?_, h⟩
      obtain rfl := Option.some.inj ho
      exact Bool.eq_false_iff.2 hpass

/-- **The sort stops at a local optimum**: no operation may pass the one before
    it. -/
theorem isChain_sortOperations (commutes : Commutation) (ops : List Operation) :
    (sortOperations commutes ops).IsChain (Stuck commutes) := by
  induction ops using List.reverseRecOn with
  | nil => exact .nil
  | append_singleton ops op ih =>
    rw [sortOperations_concat, List.isChain_reverse]
    exact isChain_insertBack (List.isChain_reverse.2 ih)

/-- **At a local optimum the sort does nothing.** -/
theorem sortWithStats_of_isChain {ops : List Operation} (h : ops.IsChain (Stuck commutes)) :
    sortWithStats commutes ops = (ops, { operations := ops.length, moved := 0 }) := by
  induction ops using List.reverseRecOn with
  | nil => rfl
  | append_singleton ops op ih =>
    obtain ⟨hops, -, hlast⟩ := List.isChain_append.1 h
    have hsorted := ih hops
    have hkept : sortOperations commutes ops = ops := congrArg Prod.fst hsorted
    have hmoves : moves commutes op ops.reverse = false := by
      cases hreverse : ops.reverse with
      | nil => rfl
      | cons tail rest =>
        refine hlast tail ?_ op rfl
        rw [← List.head?_reverse, hreverse]
        rfl
    rw [sortWithStats_concat, hkept, hsorted, hmoves, insertBack_of_not_moves hmoves]
    simp

/-! ## What the run reports -/

theorem operations_sortWithStats (ops : List Operation) :
    (sortWithStats commutes ops).2.operations = ops.length := by
  induction ops using List.reverseRecOn with
  | nil => rfl
  | append_singleton ops op ih => rw [sortWithStats_concat, ih, List.length_append]; rfl

theorem sortOperations_eq_of_moved_eq_zero {ops : List Operation}
    (h : (sortWithStats commutes ops).2.moved = 0) : sortOperations commutes ops = ops := by
  induction ops using List.reverseRecOn with
  | nil => rfl
  | append_singleton ops op ih =>
    rw [sortWithStats_concat, Nat.add_eq_zero_iff] at h
    obtain ⟨hmoved, hlast⟩ := h
    have hstays : moves commutes op (sortOperations commutes ops).reverse = false := by
      by_contra hmoves
      rw [Bool.not_eq_false] at hmoves
      exact absurd hlast (by rw [hmoves]; exact Nat.one_ne_zero)
    rw [sortOperations_concat, insertBack_of_not_moves hstays, ih hmoved, List.reverse_cons,
      List.reverse_reverse]

/-- An operation that moves passes at least one other. -/
theorem moves_le_length_takeWhile (op : Operation) (reversed : List Operation) :
    (if moves commutes op reversed then 1 else 0) ≤
      (reversed.takeWhile (passes commutes · op)).length := by
  cases reversed with
  | nil => exact Nat.zero_le _
  | cons tail rest =>
    rw [moves, List.takeWhile_cons]
    split_ifs
    · exact Nat.succ_pos _
    · exact le_rfl

/-- **Every operation that moves takes away an inversion.** -/
theorem inversions_sortOperations_le (commutes : Commutation) (ops : List Operation) :
    inversions (sortOperations commutes ops) + (sortWithStats commutes ops).2.moved ≤
      inversions ops := by
  induction ops using List.reverseRecOn with
  | nil => exact le_rfl
  | append_singleton ops op ih =>
    let reversed := (sortOperations commutes ops).reverse
    let after := (reversed.takeWhile (passes commutes · op)).reverse
    let before := (reversed.dropWhile (passes commutes · op)).reverse
    have hsplit : before ++ after = sortOperations commutes ops := by
      rw [← List.reverse_append, List.takeWhile_append_dropWhile, List.reverse_reverse]
    have hplaced : sortOperations commutes (ops ++ [op]) = before ++ op :: after := by
      rw [sortOperations_concat, insertBack_eq, List.reverse_append, List.reverse_cons,
        List.append_assoc, List.singleton_append]
    have hgreater : ∀ o ∈ after, op.keyLt o = true := fun o ho => by
      have hpass := List.mem_takeWhile_imp (List.mem_reverse.1 ho)
      rw [passes, Bool.and_eq_true] at hpass
      exact hpass.1
    -- the operation has as many inversions with those before it in the list as
    -- with those placed, of which it takes away those with `after`
    have hinserted := inversions_insert before after hgreater
    have hadded : inversions (ops ++ [op]) + 0 = _ := inversions_insert ops [] (List.forall_mem_nil _)
    have hcount : ops.countP (op.keyLt ·) = (sortOperations commutes ops).countP (op.keyLt ·) :=
      ((rearranged_sortOperations commutes ops).perm.countP_eq _).symm
    have hmoved : (if moves commutes op reversed then 1 else 0) ≤ after.length := by
      rw [List.length_reverse]
      exact moves_le_length_takeWhile op reversed
    rw [hsplit] at hinserted
    rw [List.append_nil] at hadded
    rw [hplaced, sortWithStats_concat]
    change inversions (before ++ op :: after) +
      ((sortWithStats commutes ops).2.moved + if moves commutes op reversed then 1 else 0) ≤ _
    omega

end Sorting

/-- Equal operations have equal keys. -/
theorem Operation.sortKey_eq_of_beq {a b : Operation} (h : a.beq b = true) :
    a.sortKey = b.sortKey :=
  congrArg (List.foldr insertQubit []) (qubits_eq_of_beq h)

/-- **The sort stops at a local optimum and is idempotent.**  Of two neighbours
    in a sorted list the second does not have both a smaller key and leave to
    pass the first; sorting the list again changes nothing and moves nothing.
    The first run counts all operations, and it moves none exactly if it returns
    the list that it was given. -/
theorem Pass.sort_localOptimum (commutes : Commutation) (ops : List Operation) :
    (sortOperations commutes ops).IsChain
      (fun a b => ¬ (b.keyLt a = true ∧ commutes a b = some true)) ∧
    sortWithStats commutes (sortOperations commutes ops) =
      (sortOperations commutes ops, { operations := ops.length, moved := 0 }) ∧
    (sortWithStats commutes ops).2.operations = ops.length ∧
    ((sortWithStats commutes ops).2.moved = 0 ↔ sortOperations commutes ops = ops) ∧
    ((sortWithStats commutes ops).2.moved = 0 ↔
      sameOperations (sortOperations commutes ops) ops = true) := by
  have hchain := Sorting.isChain_sortOperations commutes ops
  have hlength : (sortOperations commutes ops).length = ops.length :=
    (Sorting.rearranged_sortOperations commutes ops).perm.length_eq
  have hmoved (h : sameOperations (sortOperations commutes ops) ops = true) :
      (sortWithStats commutes ops).2.moved = 0 := by
    have hkeys : (sortOperations commutes ops).map Operation.sortKey =
        ops.map Operation.sortKey := by
      rw [← List.forall₂_eq_eq_eq, List.forall₂_map_left_iff, List.forall₂_map_right_iff]
      exact forall₂_of_sameOperations (fun _ _ _ => Operation.sortKey_eq_of_beq) h
    have hle := Sorting.inversions_sortOperations_le commutes ops
    have heq := inversions_congr hkeys
    omega
  have hself : sameOperations ops ops = true := sameOperations_self ops
  refine ⟨hchain.imp fun a b hstuck hpass => ?_, ?_, Sorting.operations_sortWithStats ops,
    ⟨Sorting.sortOperations_eq_of_moved_eq_zero, fun h => hmoved (by rw [h]; exact hself)⟩,
    ⟨fun h => ?_, hmoved⟩⟩
  · rw [Sorting.Stuck, Sorting.passes, hpass.1, hpass.2] at hstuck
    exact absurd hstuck (by decide)
  · rw [Sorting.sortWithStats_of_isChain hchain, hlength]
  · rw [Sorting.sortOperations_eq_of_moved_eq_zero h]
    exact hself

end QuantumProgram
