/-
  QuantumProgram — the structural rules are symmetric.

  Equality of operations does not depend on the order of its arguments
  (`Operation.lawful`).  Neither do the rules for gates, once the qubits in
  common are seen as a set (`gatesCommute_comm`).  So `ruleCommutes` is
  symmetric, and what it allows is bounded by qubits and keys alone
  (`ruleCommutes_respects_keys`).
-/
import Mathlib
import QuantumProgram.Proofs.TerminalMeasurements

namespace QuantumProgram

/-! ## Rules -/

theorem keysConflict_symm {a b : Operation} (h : keysConflict a b = true) :
    keysConflict b a = true := by
  rw [keysConflict_eq_true_iff] at *
  rcases h with ⟨k, ha, hb | hb⟩ | ⟨k, hb, ha⟩
  · exact Or.inl ⟨k, hb, Or.inl ha⟩
  · exact Or.inr ⟨k, ha, hb⟩
  · exact Or.inl ⟨k, hb, Or.inr ha⟩

theorem keysConflict_comm (a b : Operation) : keysConflict a b = keysConflict b a :=
  Bool.eq_iff_iff.2 ⟨keysConflict_symm, keysConflict_symm⟩

theorem mem_sharedQubits_comm {a b : Operation} {q : Qubit} :
    q ∈ sharedQubits a b ↔ q ∈ sharedQubits b a := by
  rw [mem_sharedQubits, mem_sharedQubits, and_comm]

theorem isEmpty_sharedQubits_comm (a b : Operation) :
    (sharedQubits a b).isEmpty = (sharedQubits b a).isEmpty := by
  rw [Bool.eq_iff_iff, sharedQubits_isEmpty_iff, sharedQubits_isEmpty_iff]
  exact ⟨fun h q hb ha => h q ha hb, fun h q ha hb => h q hb ha⟩

section
variable {onA onB shared shared' : List Qubit}

theorem gatesCommute_cx {g : StandardGate} (hg : g ≠ .cx) :
    gatesCommute (.standard .cx) (.standard g) onA onB shared = flipCommutes onA onB g shared := by
  rw [gatesCommute, if_neg (by simp [Gate.isDiagonal, StandardGate.isDiagonal])]
  exact hg

theorem gatesCommute_of_cx {g : StandardGate} (hg : g ≠ .cx) :
    gatesCommute (.standard g) (.standard .cx) onA onB shared = flipCommutes onB onA g shared := by
  rw [gatesCommute, if_neg (by simp [Gate.isDiagonal, StandardGate.isDiagonal])]
  exact hg

theorem gatesCommute_of_ne_cx {g g' : StandardGate} (hg : g ≠ .cx) (hg' : g' ≠ .cx) :
    gatesCommute (.standard g) (.standard g') onA onB shared =
      if g.isDiagonal && g'.isDiagonal then some true
      else if g.isAboutX && g'.isAboutX || g.isAboutY && g'.isAboutY then some true
      else none := by
  rw [gatesCommute]
  · rfl
  · exact fun h _ => hg h
  · exact hg
  · exact hg'

theorem flipCommutes_congr (h : ∀ q, q ∈ shared ↔ q ∈ shared') (g : StandardGate) :
    flipCommutes onA onB g shared = flipCommutes onA onB g shared' := by
  have hall : (shared.all fun q => some q = onA[0]?) = shared'.all fun q => some q = onA[0]? := by
    rw [Bool.eq_iff_iff, List.all_eq_true, List.all_eq_true]
    exact forall_congr' fun q => by rw [h]
  rw [flipCommutes, flipCommutes, hall]

theorem gatesCommute_comm (h : ∀ q, q ∈ shared ↔ q ∈ shared') (a b : Gate) :
    gatesCommute a b onA onB shared = gatesCommute b a onB onA shared' := by
  rcases a with a | a
  · rcases b with b | b
    · by_cases ha : a = .cx
      · by_cases hb : b = .cx
        · subst ha hb
          have hcross : (onA[0]? ≠ onB[1]? && onA[1]? ≠ onB[0]?) =
              (onB[0]? ≠ onA[1]? && onB[1]? ≠ onA[0]?) := by
            rw [Bool.and_comm, decide_eq_decide.2 (ne_comm (a := onA[1]?)),
              decide_eq_decide.2 (ne_comm (a := onA[0]?))]
          exact congrArg some hcross
        · subst ha
          rw [gatesCommute_cx hb, gatesCommute_of_cx hb, flipCommutes_congr h]
      · by_cases hb : b = .cx
        · subst hb
          rw [gatesCommute_cx ha, gatesCommute_of_cx ha, flipCommutes_congr h]
        · rw [gatesCommute_of_ne_cx ha hb, gatesCommute_of_ne_cx hb ha, Bool.and_comm,
            Bool.and_comm a.isAboutX, Bool.and_comm a.isAboutY]
    · simp [gatesCommute, Gate.isDiagonal]
  · simp [gatesCommute, Gate.isDiagonal]

end

/-- **The structural rules are symmetric.** -/
theorem ruleCommutes_comm (a b : Operation) : ruleCommutes a b = ruleCommutes b a := by
  have heq : (a == b) = (b == a) := (Operation.lawful mixingDigest a).symm b
  rw [ruleCommutes, ruleCommutes, keysConflict_comm, isEmpty_sharedQubits_comm, heq]
  split_ifs
  · rfl
  · rfl
  · rfl
  · cases ha : a.action with
    | gate g =>
      cases hb : b.action with
      | gate g' => exact gatesCommute_comm (fun q => mem_sharedQubits_comm) g g'
      | _ => rfl
    | _ => cases b.action <;> rfl

/-! ## Keys -/

/-- One operation measures a key that the other measures or reads. -/
def Operation.KeysMeet (a b : Operation) : Prop :=
  (∃ k ∈ a.measurementKeys, k ∈ b.measurementKeys ∨ k ∈ b.controlKeys) ∨
    ∃ k ∈ b.measurementKeys, k ∈ a.controlKeys

theorem ruleCommutes_of_keysMeet {a b : Operation} (h : a.KeysMeet b) :
    ruleCommutes a b = some false := by
  rw [ruleCommutes, if_pos (keysConflict_eq_true_iff.2 h)]

theorem not_dependent_of_apart {a b : Operation} (hqubits : a.Apart b) (hkeys : ¬ a.KeysMeet b) :
    ¬ Dependent a b := by
  rintro (⟨q, ha, hb⟩ | h)
  · exact hqubits q ha hb
  · exact hkeys h

/-- **The structural rules are symmetric and respect keys.**  Operations without
    a common qubit may be swapped if neither measures a key that the other
    measures or reads.  Operations with such a key are never swapped, and on a
    common qubit none is swapped with an operation that measures a key. -/
theorem ruleCommutes_respects_keys (a b : Operation) :
    ruleCommutes a b = ruleCommutes b a ∧
    (a.Apart b → ¬ a.KeysMeet b → ruleCommutes a b = some true) ∧
    (a.KeysMeet b → ruleCommutes a b ≠ some true) ∧
    (¬ a.Apart b → (∃ k, k ∈ a.measurementKeys ∨ k ∈ b.measurementKeys) →
      ruleCommutes a b ≠ some true) := by
  refine ⟨ruleCommutes_comm a b, fun hqubits hkeys => ?_, fun hkeys => ?_,
    fun hqubits hwrites => ?_⟩
  · exact ruleCommutes_of_not_dependent (not_dependent_of_apart hqubits hkeys)
  · rw [ruleCommutes_of_keysMeet hkeys]
    decide
  · intro hswap
    obtain ⟨hab, hba⟩ := spares_of_ruleCommutes hswap
    obtain ⟨k, hk | hk⟩ := hwrites
    · exact hqubits (hab ⟨k, hk⟩)
    · exact hqubits (hba ⟨k, hk⟩).symm

/-- Two gates on different qubits may be swapped; a measurement stays before the
    gate that reads it, and before a gate on its qubit. -/
theorem ruleCommutes_measure :
    ruleCommutes ⟨.gate (.standard .cz), [.line 0, .line 1], []⟩
        ⟨.gate (.standard .h), [.line 3], []⟩ = some true ∧
      ruleCommutes ⟨.measure "m", [.line 0], []⟩
        ⟨.guarded ⟨.gate (.standard .x), [.line 5], []⟩ [.key "m"], [.line 5], []⟩ ≠ some true ∧
      ruleCommutes ⟨.measure "m", [.line 0], []⟩ ⟨.gate (.standard .z), [.line 0], []⟩ ≠
        some true :=
  ⟨(ruleCommutes_respects_keys _ _).2.1 (by decide)
      (by unfold Operation.KeysMeet; decide),
    (ruleCommutes_respects_keys _ _).2.2.1 (Or.inl ⟨"m", by decide, Or.inr (by decide)⟩),
    (ruleCommutes_respects_keys _ _).2.2.2 (by decide)
      ⟨"m", Or.inl (by decide)⟩⟩

end QuantumProgram
