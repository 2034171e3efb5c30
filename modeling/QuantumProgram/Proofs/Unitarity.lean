/-
  QuantumProgram — unitary programs and their queries.

  Whether a program is unitary, which keys it writes and reads, and whether it has
  an inverse are found by separate recursions over nested calls.  They agree: what
  is unitary writes and reads no key (`Operation.silent_of_hasUnitary`), and what
  has an inverse is unitary, unless a call runs no times, so that its program makes
  no difference (`Operation.hasUnitary_of_inverse?`).
-/
import QuantumProgram.Proofs.OutsideReads
import QuantumProgram.Proofs.Parts
import QuantumProgram.Proofs.Repetition
import QuantumProgram.Proofs.TerminalMeasurements

namespace QuantumProgram

/-! ## Silent interfaces -/

/-- No key is written or read. -/
structure Interface.Silent (i : Interface) : Prop where
  measured : ∀ k, k ∉ i.measured
  read : ∀ k, k ∉ i.read

theorem Program.silent_interface {p : Program} (h : ∀ op ∈ p.operations, op.interface.Silent) :
    p.interface.Silent := by
  constructor
  · intro k hk
    obtain ⟨op, hop, hk⟩ := mem_measurementKeys.1 hk
    exact (h op hop).measured k hk
  · intro k hk
    obtain ⟨⟨op, hop, hk⟩, -⟩ := mem_controlKeys.1 hk
    exact (h op hop).read k hk

/-- Renaming and marking make no keys, and only a termination condition is read
    besides. -/
theorem Call.silent_interface {c : Call} (h : c.program.interface.Silent)
    (huntil : c.settings.repeatUntil = none) : c.interface.Silent := by
  constructor
  · intro k hk
    cases hids : c.settings.effectiveIds with
    | none =>
      obtain ⟨key, hkey, -⟩ := (mem_measurementKeys_of_effectiveIds_eq_none hids).1 hk
      exact h.measured key hkey
    | some ids =>
      obtain ⟨_, -, key, hkey, -⟩ := (mem_measurementKeys_of_effectiveIds_eq_some hids).1 hk
      exact h.measured key hkey
  · intro k hk
    obtain ⟨⟨key, hkey, -⟩ | ⟨condition, hcondition, -⟩, -⟩ := mem_controlKeys.1 hk
    · exact h.read key hkey
    · rw [huntil] at hcondition
      exact absurd hcondition (by simp)

/-! ## Unitary operations -/

theorem Program.hasUnitary_iff {p : Program} :
    p.hasUnitary = true ↔ ∀ op ∈ p.operations, op.hasUnitary = true := by
  simp [hasUnitary]

theorem Operation.hasUnitary_call_iff {c : Call} {qubits : List Qubit} {tags : List Tag} :
    (Operation.mk (.call c) qubits tags).hasUnitary = true ↔
      c.settings.repeatUntil = none ∧ c.program.hasUnitary = true := by
  rw [hasUnitary_call, Call.hasUnitary, Bool.and_eq_true, Option.isNone_iff_eq_none]

/-- **What is unitary writes and reads no key.** -/
theorem Operation.silent_of_hasUnitary {op : Operation} (h : op.hasUnitary = true) :
    op.interface.Silent := by
  induction op using Operation.nestingInduction with
  | gate g qubits tags => exact ⟨fun _ => SortedSet.not_mem_empty, fun _ => SortedSet.not_mem_empty⟩
  | measure key qubits tags => exact absurd h Bool.false_ne_true
  | reset qubits tags => exact absurd h Bool.false_ne_true
  | call c qubits tags ih =>
    obtain ⟨huntil, hprogram⟩ := hasUnitary_call_iff.1 h
    rw [Program.hasUnitary_iff] at hprogram
    have hinner : c.program.interface.Silent :=
      Program.silent_interface fun op hop => ih op hop (hprogram op hop)
    rw [interface_call]
    exact Call.silent_interface hinner huntil
  | guarded op conditions qubits tags ih => exact absurd h Bool.false_ne_true

/-- A program that is unitary writes and reads no key, and so measures nothing. -/
theorem Program.queries_of_hasUnitary {p : Program} (h : p.hasUnitary = true) :
    p.measurementKeys = ∅ ∧ p.controlKeys = ∅ ∧ p.hasMeasurements = false ∧
      p.areAllMeasurementsTerminal = true := by
  rw [hasUnitary_iff] at h
  have hsilent : ∀ op ∈ p.operations, op.interface.Silent := fun op hop =>
    Operation.silent_of_hasUnitary (h op hop)
  have hshown : p.interface.Silent := silent_interface hsilent
  have hmeasures : ∀ op ∈ p.operations, ∀ k, k ∉ op.measurementKeys := fun op hop =>
    (hsilent op hop).measured
  refine ⟨SortedSet.ext fun k => iff_of_false (hshown.measured k) SortedSet.not_mem_empty,
    SortedSet.ext fun k => iff_of_false (hshown.read k) SortedSet.not_mem_empty, ?_, ?_⟩
  · rw [hasMeasurements, List.any_eq_false]
    intro op hop
    simpa [SortedSet.isEmpty_iff] using hmeasures op hop
  · rw [areAllMeasurementsTerminal_iff]
    refine List.pairwise_of_forall_mem_list fun a ha b _ => ?_
    rintro ⟨k, hk⟩
    exact absurd hk (hmeasures a ha k)

/-! ## Operations with an inverse -/

/-- All calls in an operation, at any depth. -/
def Operation.callsWithin (op : Operation) : List Call := op.parts.filterMap Operation.call?

/-- All calls in a program, at any depth. -/
def Program.callsWithin (p : Program) : List Call := p.parts.filterMap Operation.call?

theorem Operation.callsWithin_call (c : Call) (qubits : List Qubit) (tags : List Tag) :
    (Operation.mk (.call c) qubits tags).callsWithin = c :: c.program.callsWithin := by
  rw [callsWithin, parts_call]
  rfl

theorem Program.mem_callsWithin {p : Program} {c : Call} :
    c ∈ p.callsWithin ↔ ∃ op ∈ p.operations, c ∈ op.callsWithin := by
  rw [callsWithin, parts, List.filterMap_flatMap, List.mem_flatMap]
  rfl

namespace Call

/-- **A call that runs and has an inverse** calls a program with an inverse, in
    whichever direction, and does not wait for a condition. -/
theorem invertible_of_scaled {c : Call} (hc : c.WellFormed)
    (hinv : (c.scaled (-1)).fault? c.program.isInvertible = none)
    (hruns : c.settings.repetitions ≠ 0) :
    c.settings.repeatUntil = none ∧ c.program.isInvertible = true := by
  obtain ⟨-, huntil, hforth, -⟩ := fault?_eq_none_iff.1 hc.valid
  obtain ⟨-, huntil', hback, -⟩ := fault?_eq_none_iff.1 hinv
  refine ⟨repeatUntil_eq_none_of_scaled huntil huntil', ?_⟩
  rw [directionFault?_eq_none_iff] at hforth hback
  by_cases hneg : c.settings.repetitions < 0
  · exact hforth hneg
  · have hpos : 0 < c.settings.repetitions :=
      Int64.lt_of_le_of_ne (Int64.not_lt.1 hneg) hruns.symm
    rw [scaled_neg_one] at hback
    exact hback ((saturatingNeg_lt_zero_iff _).2 hpos)

end Call

/-- **What has an inverse is unitary**, if every call in it runs. -/
theorem Operation.hasUnitary_of_inverse? {op : Operation} (hop : op.WellFormed)
    (hinv : op.inverse?.isSome = true) (hruns : ∀ c ∈ op.callsWithin, c.settings.repetitions ≠ 0) :
    op.hasUnitary = true := by
  induction op using Operation.nestingInduction with
  | gate g qubits tags => rfl
  | measure key qubits tags => exact absurd hinv Bool.false_ne_true
  | reset qubits tags => exact absurd hinv Bool.false_ne_true
  | call c qubits tags ih =>
    have hc : c.WellFormed := hop.callee
    rw [inverse?_call_isSome, Option.isNone_iff_eq_none] at hinv
    rw [callsWithin_call, List.forall_mem_cons] at hruns
    obtain ⟨huntil, hprogram⟩ := Call.invertible_of_scaled hc hinv hruns.1
    rw [Program.isInvertible_eq, List.all_eq_true] at hprogram
    refine hasUnitary_call_iff.2 ⟨huntil, Program.hasUnitary_iff.2 fun op hmem => ?_⟩
    refine ih op hmem (hc.program.operations op hmem) (hprogram op hmem) fun inner hinner => ?_
    exact hruns.2 inner (Program.mem_callsWithin.2 ⟨op, hmem, hinner⟩)
  | guarded op conditions qubits tags ih => exact absurd hinv Bool.false_ne_true

namespace Program

/-- **Unitary, invertible and measuring agree.**  A unitary program writes and reads
    no key, so that it has no measurement and all of them are terminal; and a program
    with an inverse in which every call runs at least once is unitary. -/
theorem unitary_agrees {p : Program} (hp : Built (.program p)) :
    (p.hasUnitary = true → p.measurementKeys = ∅ ∧ p.controlKeys = ∅ ∧
      p.hasMeasurements = false ∧ p.areAllMeasurementsTerminal = true) ∧
    ((∃ q, p.inverse? = some q) → (∀ c ∈ p.callsWithin, c.settings.repetitions ≠ 0) →
      p.hasUnitary = true) := by
  refine ⟨queries_of_hasUnitary, fun hinv hruns => hasUnitary_iff.2 fun op hop => ?_⟩
  have hwf : p.WellFormed := hp.wellFormed
  have hall : p.isInvertible = true := Option.isSome_iff_exists.2 hinv
  rw [isInvertible_eq, List.all_eq_true] at hall
  refine Operation.hasUnitary_of_inverse? (hwf.operations op hop) (hall op hop) fun c hc => ?_
  exact hruns c (mem_callsWithin.2 ⟨op, hop, hc⟩)

/-- The turn and the two phases have an inverse, so they are unitary and read no
    key. -/
theorem unitary_agrees_turnedPhases :
    Built (.program turnedPhases) ∧ (∃ q, turnedPhases.inverse? = some q) ∧
      (∀ c ∈ turnedPhases.callsWithin, c.settings.repetitions ≠ 0) ∧
      turnedPhases.hasUnitary = true ∧ turnedPhases.controlKeys = ∅ := by
  have hinv : ∃ q, turnedPhases.inverse? = some q := ⟨_, rfl⟩
  have hruns : ∀ c ∈ turnedPhases.callsWithin, c.settings.repetitions ≠ 0 :=
    List.forall_mem_singleton.2 (show twoPhases.call.settings.repetitions ≠ 0 by decide)
  obtain ⟨hquiet, hunitary⟩ := unitary_agrees built_turnedPhases
  have hyes := hunitary hinv hruns
  exact ⟨built_turnedPhases, hinv, hruns, hyes, (hquiet hyes).2.1⟩

/-- A measurement that is called no times has an inverse, but is not unitary. -/
example :
    let skipped := Operation.ofCall
      ⟨⟨[⟨[⟨.measure "m", [.line 0], []⟩]⟩], []⟩, { repetitions := 0 }⟩
    skipped.inverse?.isSome = true ∧ skipped.hasUnitary = false := by decide

end Program

end QuantumProgram
