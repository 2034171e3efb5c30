/-
  QuantumProgram — what the sort may turn round.

  The sort puts an operation in front of others only where its key is smaller
  and the swap is proved (`rearranged_sortOperations`).  The packing after it
  keeps dependent operations in the order of the sorted list, in different
  moments (`sort_run`).
-/
import Mathlib.Data.List.TakeWhile
import QuantumProgram.Pass
import QuantumProgram.Proofs.Schedule

namespace QuantumProgram

/-! ## Keys -/

theorem insertQubit_perm (q : Qubit) : ∀ qubits, (insertQubit q qubits).Perm (q :: qubits)
  | [] => .refl _
  | r :: rest => by
    rw [insertQubit]
    split_ifs
    · exact ((insertQubit_perm q rest).cons r).trans (.swap q r rest)
    · exact .refl _

theorem pairwise_insertQubit {q : Qubit} {qubits : List Qubit}
    (h : qubits.Pairwise fun a b => (compare a b).isLE) :
    (insertQubit q qubits).Pairwise fun a b => (compare a b).isLE := by
  induction qubits with
  | nil => exact List.pairwise_singleton _ _
  | cons r rest ih =>
    obtain ⟨hr, hrest⟩ := List.pairwise_cons.1 h
    rw [insertQubit]
    split_ifs with hgt
    · refine List.pairwise_cons.2 ⟨fun s hs => ?_, ih hrest⟩
      rcases List.mem_cons.1 ((insertQubit_perm q rest).mem_iff.1 hs) with rfl | hs
      · exact Ordering.isLE_of_eq_lt (Std.OrientedCmp.gt_iff_lt.1 hgt)
      · exact hr s hs
    · have hq : (compare q r).isLE := Ordering.isLE_iff_ne_gt.2 hgt
      refine List.pairwise_cons.2 ⟨fun s hs => ?_, h⟩
      rcases List.mem_cons.1 hs with rfl | hs
      · exact hq
      · exact Std.TransCmp.isLE_trans hq (hr s hs)

/-- The key of an operation has its qubits. -/
theorem Operation.sortKey_perm (op : Operation) : op.sortKey.Perm op.qubits := by
  rw [sortKey]
  induction op.qubits with
  | nil => exact .refl _
  | cons q rest ih => exact (insertQubit_perm q _).trans (ih.cons q)

/-- The key of an operation is in order. -/
theorem Operation.pairwise_sortKey (op : Operation) :
    op.sortKey.Pairwise fun a b => (compare a b).isLE := by
  rw [sortKey]
  induction op.qubits with
  | nil => exact .nil
  | cons q rest ih => exact pairwise_insertQubit ih

/-! ## The sort -/

namespace Sorting

variable (commutes : Commutation)

theorem insertBack_eq (op : Operation) : ∀ reversed : List Operation,
    insertBack commutes op reversed =
      reversed.takeWhile (passes commutes · op) ++ op :: reversed.dropWhile (passes commutes · op)
  | [] => rfl
  | tail :: rest => by
    rw [insertBack]
    split_ifs with h
    · simp [h, insertBack_eq op rest]
    · simp [h]

theorem sortOperations_concat (ops : List Operation) (op : Operation) :
    sortOperations commutes (ops ++ [op]) =
      (insertBack commutes op (sortOperations commutes ops).reverse).reverse := by
  simp [sortOperations, sortWithStats, step]

/-- **The sort puts an operation in front of others only if it may pass them.** -/
theorem rearranged_sortOperations (ops : List Operation) :
    Rearranged (fun tail op => passes commutes tail op = true) ops
      (sortOperations commutes ops) := by
  induction ops using List.reverseRecOn with
  | nil => exact .nil
  | append_singleton ops op ih =>
    let reversed := (sortOperations commutes ops).reverse
    have hsplit : sortOperations commutes ops =
        (reversed.dropWhile (passes commutes · op)).reverse ++
          (reversed.takeWhile (passes commutes · op)).reverse := by
      rw [← List.reverse_append, List.takeWhile_append_dropWhile, List.reverse_reverse]
    rw [sortOperations_concat, insertBack_eq, List.reverse_append, List.reverse_cons,
      List.append_assoc, List.singleton_append]
    rw [hsplit] at ih
    refine ih.insert op fun tail ht => ?_
    have hpass := List.mem_takeWhile_imp (List.mem_reverse.1 ht)
    exact hpass

end Sorting

theorem Program.tags_sorted {commutes : Commutation} (p : Program) :
    (p.sorted commutes).tags = p.tags := by
  simp [sorted, withTags, ofOperations, ofItems, extend, empty]

namespace Pass

variable (commutes : Commutation)

/-- A run of the sort returns the sorted program and only notes what it did. -/
theorem run_sort (p : Program) (context : PassContext) :
    ((sort commutes).run p).run.run context =
      (.ok (p.sorted commutes),
        { context with sortStats := some (sortWithStats commutes p.operations).2 }) := rfl

/-- **The sort turns round only what it may.**  The operations are those of the
    program, place by place.  An operation stands in front of an earlier one only
    if its key is smaller and the swap is proved, and dependent operations are in
    different moments, in the order of the sorted list. -/
theorem sort_run (p : Program) (context : PassContext) :
    ∃ (q : Program) (context' : PassContext),
      ((sort commutes).run p).run.run context = (.ok q, context') ∧ q.tags = p.tags ∧
      ∃ (place : Fin p.operations.length ≃ Fin (sortOperations commutes p.operations).length)
        (slot : Fin (sortOperations commutes p.operations).length → ℕ),
        (∀ i, (sortOperations commutes p.operations)[place i] = p.operations[i]) ∧
        IsSchedule (sortOperations commutes p.operations) slot q.moments ∧
        ∀ i j, i < j →
          (place j < place i → p.operations[j].keyLt p.operations[i] = true ∧
            commutes p.operations[i] p.operations[j] = some true) ∧
          (Dependent p.operations[i] p.operations[j] →
            (place i < place j ∧ slot (place i) < slot (place j)) ∨
              (place j < place i ∧ slot (place j) < slot (place i))) := by
  obtain ⟨place, hplace, hpass⟩ :=
    (Sorting.rearranged_sortOperations commutes p.operations).exists_places
  refine ⟨_, _, run_sort commutes p context, p.tags_sorted, place,
    fun k => Packing.slotAt (sortOperations commutes p.operations) k, hplace,
    Program.isSchedule_ofOperations _, ?_⟩
  intro i j hij
  refine ⟨fun hji => ?_, fun hd => ?_⟩
  · simpa [Sorting.passes] using hpass i j hij hji
  · rcases lt_trichotomy (place i) (place j) with h | h | h
    · exact Or.inl ⟨h, Program.slotAt_lt_of_dependent _ h (by rwa [hplace, hplace])⟩
    · exact absurd (place.injective h) (ne_of_lt hij)
    · exact Or.inr ⟨h, Program.slotAt_lt_of_dependent _ h (by rw [hplace, hplace]; exact hd.symm)⟩

end Pass

end QuantumProgram
