/-
  QuantumProgram — sorting keeps measurements terminal.

  All measurements of a program are terminal if every operation that writes a
  key leaves its qubits alone for good: a statement about all pairs of
  operations in their order (`Program.areAllMeasurementsTerminal_iff`).  Neither
  the sort by the structural rules nor the packing after it moves anything over
  a measurement on a common qubit, and all other queries do not depend on the
  order at all (`Pass.sort_keeps_queries`).
-/
import QuantumProgram.Proofs.DeepSort
import QuantumProgram.Proofs.Equality

namespace QuantumProgram

/-! ## Terminal measurements -/

/-- If the first operation writes a key, the second acts on other qubits. -/
def Operation.Spares (a b : Operation) : Prop := (∃ k, k ∈ a.measurementKeys) → a.Apart b

namespace Program

theorem terminalAfter_eq_true_iff {measured : List Qubit} {ops : List Operation} :
    terminalAfter measured ops = true ↔
      (∀ op ∈ ops, ∀ q ∈ op.qubits, q ∉ measured) ∧ ops.Pairwise Operation.Spares := by
  induction ops generalizing measured with
  | nil => simp [terminalAfter]
  | cons op rest ih =>
    have hany : op.qubits.any (measured.contains ·) = true ↔ ¬ ∀ q ∈ op.qubits, q ∉ measured := by
      simp
    rw [terminalAfter, List.forall_mem_cons, List.pairwise_cons]
    split_ifs with htouched hempty
    · simp [hany.1 htouched]
    · -- the operation writes no key and marks no qubit
      rw [hany, not_not] at htouched
      have hnone : ∀ b ∈ rest, op.Spares b := fun b _ ⟨k, hk⟩ =>
        absurd hk (SortedSet.isEmpty_iff.1 hempty k)
      rw [ih]
      exact ⟨fun ⟨hrest, hpairs⟩ => ⟨⟨htouched, hrest⟩, hnone, hpairs⟩,
        fun ⟨⟨_, hrest⟩, _, hpairs⟩ => ⟨hrest, hpairs⟩⟩
    · rw [hany, not_not] at htouched
      have hwrites : ∃ k, k ∈ op.measurementKeys := by
        rw [SortedSet.isEmpty_iff] at hempty
        push Not at hempty
        exact hempty
      rw [ih]
      simp only [List.mem_append, not_or]
      constructor
      · rintro ⟨hrest, hpairs⟩
        refine ⟨⟨htouched, fun b hb q hq => (hrest b hb q hq).1⟩, fun b hb _ q hq hq' => ?_, hpairs⟩
        exact (hrest b hb q hq').2 hq
      · rintro ⟨⟨_, hrest⟩, hspares, hpairs⟩
        exact ⟨fun b hb q hq => ⟨hrest b hb q hq, fun hq' => hspares b hb hwrites q hq' hq⟩, hpairs⟩

/-- **All measurements are terminal** if no operation acts on a qubit of an
    earlier one that writes a key. -/
theorem areAllMeasurementsTerminal_iff (p : Program) :
    p.areAllMeasurementsTerminal = true ↔ p.operations.Pairwise Operation.Spares := by
  rw [areAllMeasurementsTerminal, terminalAfter_eq_true_iff]
  simp

end Program

/-! ## What may be turned round -/

theorem Operation.spares_of_gate {a b : Operation} {g : Gate} (h : a.action = .gate g) :
    a.Spares b := by
  rintro ⟨k, hk⟩
  obtain ⟨action, qubits, tags⟩ := a
  obtain rfl : action = .gate g := h
  exact absurd hk SortedSet.not_mem_empty

/-- Operations without a common qubit leave each other's qubits alone. -/
theorem Operation.Apart.spares {a b : Operation} (h : a.Apart b) : a.Spares b ∧ b.Spares a :=
  ⟨fun _ => h, fun _ => h.symm⟩

theorem spares_of_not_dependent {a b : Operation} (h : ¬ Dependent a b) :
    a.Spares b ∧ b.Spares a := by
  have hapart : a.Apart b := fun q ha hb => h (Or.inl ⟨q, ha, hb⟩)
  exact hapart.spares

/-- **The structural rules move nothing over a measurement** on a common qubit. -/
theorem spares_of_ruleCommutes {a b : Operation} (h : ruleCommutes a b = some true) :
    a.Spares b ∧ b.Spares a := by
  simp only [ruleCommutes] at h
  split_ifs at h with hkeys hshared hequal
  · exact absurd h (by decide)
  · have hapart : a.Apart b := sharedQubits_isEmpty_iff.1 hshared
    exact hapart.spares
  · -- equal operations that write a key would have a key in common
    have heq : a.measurementKeys = b.measurementKeys := Operation.measurementKeys_eq_of_beq hequal
    have hnone : ∀ k, k ∉ a.measurementKeys := fun k hk =>
      hkeys (keysConflict_eq_true_iff.2 (Or.inl ⟨k, hk, Or.inl (heq ▸ hk)⟩))
    constructor
    · rintro ⟨k, hk⟩
      exact absurd hk (hnone k)
    · rintro ⟨k, hk⟩
      exact absurd (heq ▸ hk) (hnone k)
  · -- of the rules for common qubits only those for gates say yes
    cases ha : a.action with
    | gate g =>
      cases hb : b.action with
      | gate g' => exact ⟨Operation.spares_of_gate ha, Operation.spares_of_gate hb⟩
      | measure | reset | call | guarded => simp [ha, hb] at h
    | measure | reset => simp [ha] at h
    | call | guarded => cases hb : b.action <;> simp [ha, hb] at h

/-! ## The sorted program -/

namespace Program

/-- A sort that moves nothing over a measurement on a common qubit keeps
    measurements terminal. -/
theorem areAllMeasurementsTerminal_sorted {commutes : Commutation}
    (h : ∀ a b, commutes a b = some true → a.Spares b ∧ b.Spares a) (p : Program) :
    (p.sorted commutes).areAllMeasurementsTerminal = p.areAllMeasurementsTerminal := by
  have hsort := (Sorting.rearranged_sortOperations commutes p.operations).pairwise_iff
    (S := Operation.Spares) fun a b hpass => by
      rw [Sorting.passes, Bool.and_eq_true, decide_eq_true_eq] at hpass
      exact h a b hpass.2
  have hpack := (Packing.rearranged_ofOperations (sortOperations commutes p.operations)).pairwise_iff
    (S := Operation.Spares) fun _ _ => spares_of_not_dependent
  rw [Bool.eq_iff_iff, areAllMeasurementsTerminal_iff, areAllMeasurementsTerminal_iff]
  exact hpack.trans hsort

theorem alike_sorted (commutes : Commutation) (p : Program) : (p.sorted commutes).Alike p := by
  refine .of_perm (f := id) (fun op _ => .refl op) ?_
  rw [List.map_id]
  exact p.operations_sorted_perm

end Program

/-- **Sorting by the structural rules changes no query**: neither those that do
    not depend on the order of the operations, nor whether all measurements are
    terminal, which does. -/
theorem Pass.sort_keeps_queries (p : Program) (context : PassContext) :
    ∃ q context', ((sort ruleCommutes).run p).run.run context = (.ok q, context') ∧
      q.qubits = p.qubits ∧ q.operationCount = p.operationCount ∧ q.tags = p.tags ∧
      q.measurementKeys = p.measurementKeys ∧ q.controlKeys = p.controlKeys ∧
      q.parameterNames = p.parameterNames ∧ q.hasUnitary = p.hasUnitary ∧
      q.hasMeasurements = p.hasMeasurements ∧
      q.areAllMeasurementsTerminal = p.areAllMeasurementsTerminal := by
  have hperm : (p.sorted ruleCommutes).operations.Perm p.operations := p.operations_sorted_perm
  have hlike := p.alike_sorted ruleCommutes
  have hinterface : (p.sorted ruleCommutes).interface = p.interface := hlike.interface
  exact ⟨_, _, run_sort ruleCommutes p context, hlike.qubits, hperm.length_eq, p.tags_sorted,
    congrArg Interface.measured hinterface, congrArg Interface.read hinterface,
    congrArg Interface.parameters hinterface, congrArg Interface.unitary hinterface,
    hperm.any_eq, p.areAllMeasurementsTerminal_sorted fun _ _ => spares_of_ruleCommutes⟩

end QuantumProgram
