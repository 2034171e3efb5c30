/-
  QuantumProgram — terminal measurements and calls.

  Whether all measurements of a program are terminal is found from its own
  operations, each seen from outside: its qubits, and whether it writes a key
  (`Operation.outline`).  A call is one operation there, so the answer is the same
  whatever its program does after a measurement (`Program.terminal_seen_outside`),
  and a program may be said to measure last although one that it calls does not.
-/
import QuantumProgram.Proofs.Unitarity

namespace QuantumProgram

/-- What is seen of an operation from outside: its qubits, and whether it writes a
    measurement key. -/
def Operation.outline (op : Operation) : List Qubit × Bool :=
  (op.qubits, !op.measurementKeys.isEmpty)

theorem Operation.writes_iff_outline {op : Operation} :
    (∃ k, k ∈ op.measurementKeys) ↔ op.outline.2 = true := by
  rw [outline, Bool.not_eq_true', ← Bool.not_eq_true, SortedSet.isEmpty_iff]
  push Not
  rfl

theorem Operation.spares_iff_outline {a b : Operation} :
    a.Spares b ↔ (a.outline.2 = true → ∀ q ∈ a.outline.1, q ∉ b.outline.1) := by
  rw [Spares, writes_iff_outline]
  rfl

namespace Program

/-- An operation of the program acts on a qubit of an earlier one that writes a
    measurement key. -/
def ActsAfterMeasuring (p : Program) : Prop :=
  ∃ i j : ℕ, i < j ∧ ∃ a b, p.operations[i]? = some a ∧ p.operations[j]? = some b ∧
    (∃ k, k ∈ a.measurementKeys) ∧ ∃ q, q ∈ a.qubits ∧ q ∈ b.qubits

variable {p q : Program}

theorem not_actsAfterMeasuring_iff :
    ¬ p.ActsAfterMeasuring ↔ p.operations.Pairwise Operation.Spares := by
  rw [List.pairwise_iff_getElem]
  constructor
  · intro h i j hi hj hij hwrites q ha hb
    exact h ⟨i, j, hij, _, _, List.getElem?_eq_getElem hi, List.getElem?_eq_getElem hj, hwrites,
      q, ha, hb⟩
  · rintro h ⟨i, j, hij, a, b, ha, hb, hwrites, q, hqa, hqb⟩
    obtain ⟨hi, rfl⟩ := List.getElem?_eq_some_iff.1 ha
    obtain ⟨hj, rfl⟩ := List.getElem?_eq_some_iff.1 hb
    exact h i j hi hj hij hwrites q hqa hqb

/-- **The single pass over the operations judges all pairs of them.** -/
theorem areAllMeasurementsTerminal_eq_false_iff :
    p.areAllMeasurementsTerminal = false ↔ p.ActsAfterMeasuring := by
  rw [← Bool.not_eq_true, areAllMeasurementsTerminal_iff, ← not_actsAfterMeasuring_iff, not_not]

/-- Programs that look alike from outside, operation by operation, are judged alike. -/
theorem areAllMeasurementsTerminal_congr
    (h : p.operations.map Operation.outline = q.operations.map Operation.outline) :
    p.areAllMeasurementsTerminal = q.areAllMeasurementsTerminal := by
  have hpairs (r : Program) : r.areAllMeasurementsTerminal = true ↔
      (r.operations.map Operation.outline).Pairwise fun a b => a.2 = true → ∀ q ∈ a.1, q ∉ b.1 := by
    rw [areAllMeasurementsTerminal_iff, List.pairwise_map]
    exact List.Pairwise.iff fun _ _ => Operation.spares_iff_outline
  rw [Bool.eq_iff_iff, hpairs, hpairs, h]

/-- **Terminal measurements are judged from outside.**  A program is refused exactly
    if one of its own operations acts on a qubit of an earlier one that writes a key.
    So a program passes although one that it calls, at some depth, is refused exactly
    if only the operations of the called one do so.  Whatever programs the operations
    call or guard counts no further than for what is seen from outside, and a
    program of nothing but a call always passes. -/
theorem terminal_seen_outside (p : Program) :
    (p.areAllMeasurementsTerminal = false ↔ p.ActsAfterMeasuring) ∧
    ((p.areAllMeasurementsTerminal = true ∧
        ∃ c ∈ p.callsWithin, c.program.areAllMeasurementsTerminal = false) ↔
      ¬ p.ActsAfterMeasuring ∧ ∃ c ∈ p.callsWithin, c.program.ActsAfterMeasuring) ∧
    (∀ q : Program, p.operations.map Operation.outline = q.operations.map Operation.outline →
      p.areAllMeasurementsTerminal = q.areAllMeasurementsTerminal) ∧
    ∀ (c : Call) (tags : List Tag),
      (⟨[⟨[.ofCall c]⟩], tags⟩ : Program).areAllMeasurementsTerminal = true := by
  refine ⟨areAllMeasurementsTerminal_eq_false_iff, ?_, fun q => areAllMeasurementsTerminal_congr,
    fun c tags => ?_⟩
  · rw [areAllMeasurementsTerminal_iff, not_actsAfterMeasuring_iff]
    simp only [areAllMeasurementsTerminal_eq_false_iff]
  · rw [areAllMeasurementsTerminal_iff]
    exact List.pairwise_singleton _ _

/-- A program that flips a qubit after its measurement. -/
def measureThenFlip : Program :=
  ⟨[⟨[⟨.measure "m", [.line 0], []⟩]⟩, ⟨[⟨.gate (.standard .x), [.line 0], []⟩]⟩], []⟩

/-- A program that does nothing but call it. -/
def callingMeasureThenFlip : Program := ⟨[⟨[.ofCall ⟨measureThenFlip, {}⟩]⟩], []⟩

theorem built_callingMeasureThenFlip : Built (.program callingMeasureThenFlip) := by
  have hmeasure : Built (.operation ⟨.measure "m", [.line 0], []⟩) :=
    .measure (Operation.measure_eq_ok_iff.2 ⟨by decide, rfl⟩)
  have hflip : Built (.operation ⟨.gate (.standard .x), [.line 0], []⟩) :=
    .gate (Operation.ofGate_eq_ok_iff.2 ⟨rfl, by decide, rfl⟩)
  have hprogram : Built (.program measureThenFlip) :=
    .ofMoments (List.forall_mem_cons.2 ⟨.ofOperations (List.forall_mem_singleton.2 hmeasure) rfl,
      List.forall_mem_singleton.2 (.ofOperations (List.forall_mem_singleton.2 hflip) rfl)⟩) []
  have hcall : Built (.operation (.ofCall ⟨measureThenFlip, {}⟩)) :=
    .call (.build (d := { program := measureThenFlip }) hprogram rfl)
  exact .ofMoments (List.forall_mem_singleton.2
    (.ofOperations (List.forall_mem_singleton.2 hcall) rfl)) []

/-- The calling program passes, and the called one does not. -/
theorem terminal_misses_call :
    Built (.program callingMeasureThenFlip) ∧
      callingMeasureThenFlip.areAllMeasurementsTerminal = true ∧
      ⟨measureThenFlip, {}⟩ ∈ callingMeasureThenFlip.callsWithin ∧
      measureThenFlip.areAllMeasurementsTerminal = false :=
  ⟨built_callingMeasureThenFlip, by decide, List.mem_singleton.2 rfl, by decide⟩

end Program

end QuantumProgram
