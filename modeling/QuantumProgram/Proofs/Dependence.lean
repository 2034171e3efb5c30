/-
  QuantumProgram — operations that have to keep their order.

  Two operations are dependent if they share a qubit or if one measures a key
  that the other measures or reads.  The structural rules allow a swap of any
  two operations that are not dependent (`ruleCommutes_of_not_dependent`), and a
  moment can take an operation if it depends on none that is there
  (`Moment.canAccept_iff`).
-/
import Mathlib.Tactic
import QuantumProgram.Commutation
import QuantumProgram.Moment

namespace QuantumProgram

/-- Two operations are dependent if they share a qubit or if one measures a
    key that the other measures or reads. -/
def Dependent (a b : Operation) : Prop :=
  (∃ q ∈ a.qubits, q ∈ b.qubits) ∨
    (∃ k ∈ a.measurementKeys, k ∈ b.measurementKeys ∨ k ∈ b.controlKeys) ∨
    ∃ k ∈ b.measurementKeys, k ∈ a.controlKeys

theorem Dependent.symm {a b : Operation} (h : Dependent a b) : Dependent b a := by
  rcases h with ⟨q, ha, hb⟩ | ⟨k, ha, hb | hb⟩ | ⟨k, hb, ha⟩
  · exact Or.inl ⟨q, hb, ha⟩
  · exact Or.inr (Or.inl ⟨k, hb, Or.inl ha⟩)
  · exact Or.inr (Or.inr ⟨k, ha, hb⟩)
  · exact Or.inr (Or.inl ⟨k, hb, Or.inr ha⟩)

theorem keysConflict_eq_true_iff {a b : Operation} :
    keysConflict a b = true ↔
      (∃ k ∈ a.measurementKeys, k ∈ b.measurementKeys ∨ k ∈ b.controlKeys) ∨
        ∃ k ∈ b.measurementKeys, k ∈ a.controlKeys := by
  have disjoint (s t : SortedSet String) : (!s.isDisjoint t) = true ↔ ∃ k ∈ s, k ∈ t := by
    rw [Bool.not_eq_true', ← Bool.not_eq_true, SortedSet.isDisjoint_iff]
    push Not; rfl
  rw [keysConflict, Bool.or_eq_true, Bool.or_eq_true, disjoint, disjoint, disjoint]
  simp only [and_or_left, exists_or]

@[simp] theorem mem_sharedQubits {a b : Operation} {q : Qubit} :
    q ∈ sharedQubits a b ↔ q ∈ a.qubits ∧ q ∈ b.qubits := by
  simp [sharedQubits]

theorem sharedQubits_isEmpty_iff {a b : Operation} :
    (sharedQubits a b).isEmpty = true ↔ ∀ q ∈ a.qubits, q ∉ b.qubits := by
  simp [List.isEmpty_iff, List.eq_nil_iff_forall_not_mem]

theorem dependent_iff {a b : Operation} :
    Dependent a b ↔ ¬ (sharedQubits a b).isEmpty = true ∨ keysConflict a b = true := by
  rw [sharedQubits_isEmpty_iff, keysConflict_eq_true_iff, Dependent]
  push Not; rfl

instance (a b : Operation) : Decidable (Dependent a b) := decidable_of_iff' _ dependent_iff

/-- **Operations that are not dependent may be swapped.** -/
theorem ruleCommutes_of_not_dependent {a b : Operation} (h : ¬ Dependent a b) :
    ruleCommutes a b = some true := by
  rw [dependent_iff, not_or, not_not] at h
  simp [ruleCommutes, h.1, h.2]

/-! ## Moments -/

namespace Moment

variable {m : Moment}

theorem operatesOn_eq_false_iff {qubits : List Qubit} :
    m.operatesOn qubits = false ↔ ∀ o ∈ m.operations, ∀ q ∈ o.qubits, q ∉ qubits := by
  simp [operatesOn]

theorem mem_measurementKeys {k : String} :
    k ∈ m.measurementKeys ↔ ∃ o ∈ m.operations, k ∈ o.measurementKeys := by
  simp [measurementKeys]

theorem mem_controlKeys {k : String} :
    k ∈ m.controlKeys ↔ ∃ o ∈ m.operations, k ∈ o.controlKeys := by
  simp [controlKeys]

/-- **A moment can take an operation** if none of its operations is dependent on
    it. -/
theorem canAccept_iff {op : Operation} :
    m.canAccept op = true ↔ ∀ o ∈ m.operations, ¬ Dependent o op := by
  simp only [canAccept, Bool.and_eq_true, Bool.not_eq_true', operatesOn_eq_false_iff,
    SortedSet.isDisjoint_iff, mem_measurementKeys, mem_controlKeys]
  constructor
  · rintro ⟨⟨⟨hqubits, hread⟩, hmeasured⟩, hlater⟩ o ho
    rintro (⟨q, hq, hq'⟩ | ⟨k, hk, hk' | hk'⟩ | ⟨k, hk', hk⟩)
    · exact hqubits o ho q hq hq'
    · exact hmeasured k hk' ⟨o, ho, hk⟩
    · exact hread k hk' ⟨o, ho, hk⟩
    · exact hlater k hk' ⟨o, ho, hk⟩
  · intro h
    refine ⟨⟨⟨fun o ho q hq hq' => ?_, ?_⟩, ?_⟩, ?_⟩
    · exact h o ho (Or.inl ⟨q, hq, hq'⟩)
    · rintro k hk ⟨o, ho, hk'⟩
      exact h o ho (Or.inr (Or.inl ⟨k, hk', Or.inr hk⟩))
    · rintro k hk ⟨o, ho, hk'⟩
      exact h o ho (Or.inr (Or.inl ⟨k, hk', Or.inl hk⟩))
    · rintro k hk ⟨o, ho, hk'⟩
      exact h o ho (Or.inr (Or.inr ⟨k, hk, hk'⟩))

end Moment

end QuantumProgram
