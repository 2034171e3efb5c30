/-
  QuantumProgram — keys that a call reads from outside.

  A program reads a key from outside if an operation reads it before any other
  measures it.  What a program shows does not depend on the order of its
  operations: a key that is measured anywhere in it is not shown as read.  A
  call that marks no keys shows such a key all the same, as one that it
  measures.  With ids the names of the measured keys change, so the read may be
  shown nowhere (`Call.hidden_read_iff`), and the call no longer keeps its place
  after a measurement of the key.
-/
import QuantumProgram.Proofs.Built
import QuantumProgram.Proofs.Dependence

namespace QuantumProgram

/-! ## Keys of programs -/

namespace Program

variable {p : Program} {k : String}

theorem mem_measurementKeys :
    k ∈ p.measurementKeys ↔ ∃ op ∈ p.operations, k ∈ op.measurementKeys := by
  simp [measurementKeys]

theorem mem_controlKeys : k ∈ p.controlKeys ↔
    (∃ op ∈ p.operations, k ∈ op.controlKeys) ∧ k ∉ p.measurementKeys := by
  simp only [controlKeys, readOutside, SortedSet.mem_filter, Bool.not_eq_true',
    ← Bool.not_eq_true, SortedSet.contains_iff, SortedSet.mem_unions, List.mem_map,
    exists_exists_and_eq_and]

/-- The key is read by an operation of the program, and no operation before it
    measures the key. -/
def ReadsFromOutside (p : Program) (k : String) : Prop :=
  ∃ before op after, p.operations = before ++ op :: after ∧ k ∈ op.controlKeys ∧
    ∀ o ∈ before, k ∉ o.measurementKeys

theorem ReadsFromOutside.exists_mem (h : p.ReadsFromOutside k) :
    ∃ op ∈ p.operations, k ∈ op.controlKeys := by
  obtain ⟨before, op, after, hops, hread, -⟩ := h
  exact ⟨op, hops ▸ List.mem_append_right _ List.mem_cons_self, hread⟩

end Program

/-! ## Keys of calls -/

namespace Call

variable {c : Call} {k : String}

theorem mem_measurementKeys_of_effectiveIds_eq_none (h : c.settings.effectiveIds = none) :
    k ∈ c.measurementKeys ↔ ∃ key ∈ c.program.measurementKeys, c.settings.renameKey key = k := by
  simp [measurementKeys, CallSettings.outerKeys, h]

theorem mem_measurementKeys_of_effectiveIds_eq_some {ids : List String}
    (h : c.settings.effectiveIds = some ids) : k ∈ c.measurementKeys ↔ ∃ id ∈ ids,
      ∃ key ∈ c.program.measurementKeys, id ++ ":" ++ c.settings.renameKey key = k := by
  simp [measurementKeys, CallSettings.outerKeys, h]

theorem mem_controlKeys : k ∈ c.controlKeys ↔
    ((∃ key ∈ c.program.controlKeys, c.settings.renameKey key = k) ∨
      ∃ condition, c.settings.repeatUntil = some condition ∧ condition.measured = k) ∧
    k ∉ c.measurementKeys := by
  simp only [controlKeys, readOutside, SortedSet.mem_filter, Bool.not_eq_true',
    ← Bool.not_eq_true, SortedSet.contains_iff, SortedSet.mem_insertMany, SortedSet.mem_map,
    List.mem_map, Option.mem_toList]

/-- A call that marks its keys has no termination condition. -/
theorem WellFormed.repeatUntil_eq_none (h : c.WellFormed) {ids : List String}
    (hids : c.settings.effectiveIds = some ids) : c.settings.repeatUntil = none := by
  have huse : c.settings.useIds = true := by
    by_contra hunused
    rw [CallSettings.effectiveIds, if_neg hunused] at hids
    exact absurd hids (by simp)
  obtain ⟨-, huntil, -⟩ := fault?_eq_none_iff.1 h.valid
  cases hcondition : c.settings.repeatUntil with
  | none => rfl
  | some condition => simp [untilFault?, hcondition, huse] at huntil

/-- The call shows the key, as one that it reads or as one that it measures. -/
def Shows (c : Call) (k : String) : Prop := k ∈ c.controlKeys ∨ k ∈ c.measurementKeys

instance (c : Call) (k : String) : Decidable (c.Shows k) := inferInstanceAs (Decidable (_ ∨ _))

theorem shows_iff : c.Shows k ↔
    (∃ key ∈ c.program.controlKeys, c.settings.renameKey key = k) ∨
      (∃ condition, c.settings.repeatUntil = some condition ∧ condition.measured = k) ∨
      k ∈ c.measurementKeys := by
  rw [Shows, mem_controlKeys, ← or_assoc]
  by_cases hmeasured : k ∈ c.measurementKeys <;> simp [hmeasured]

/-- **A call shows a key exactly if it keeps its order** with everything that
    measures the key. -/
theorem shows_iff_dependent :
    c.Shows k ↔ ∀ o : Operation, k ∈ o.measurementKeys → Dependent o (.ofCall c) := by
  have hread : (Operation.ofCall c).controlKeys = c.controlKeys :=
    Operation.controlKeys_call c _ _
  have hmeasured : (Operation.ofCall c).measurementKeys = c.measurementKeys :=
    Operation.measurementKeys_call c _ _
  constructor
  · rintro hshows o ho
    rw [Dependent, hread, hmeasured]
    exact Or.inr (Or.inl ⟨k, ho, hshows.symm⟩)
  · intro h
    -- a measurement of the key on no qubits shares nothing else with the call
    have ho : ∀ key, key ∈ (Operation.mk (.measure k) [] []).measurementKeys ↔ key = k := fun key =>
      SortedSet.mem_singleton
    rcases h ⟨.measure k, [], []⟩ ((ho k).2 rfl) with ⟨q, hq, -⟩ | ⟨key, hkey, hc⟩ | ⟨key, -, hkey⟩
    · exact absurd hq List.not_mem_nil
    · rw [hread, hmeasured, (ho key).1 hkey] at hc
      exact hc.symm
    · exact absurd hkey SortedSet.not_mem_empty

/-! ## Hidden reads -/

/-- A key that the program reads is shown if the program does not measure it. -/
theorem shows_of_not_measured (hk : ∃ op ∈ c.program.operations, k ∈ op.controlKeys)
    (hmeasured : k ∉ c.program.measurementKeys) : c.Shows (c.settings.renameKey k) :=
  shows_iff.2 (Or.inl ⟨k, Program.mem_controlKeys.2 ⟨hk, hmeasured⟩, rfl⟩)

/-- A key that the program measures is shown if the call marks no keys. -/
theorem shows_of_effectiveIds_eq_none (hids : c.settings.effectiveIds = none)
    (hmeasured : k ∈ c.program.measurementKeys) : c.Shows (c.settings.renameKey k) :=
  Or.inr ((mem_measurementKeys_of_effectiveIds_eq_none hids).2 ⟨k, hmeasured, rfl⟩)

/-- **When a call hides a read from outside.**  The program also measures the
    key, the call marks its keys, and neither another key that the program reads
    nor a marked one has the new name of the key by accident.  Exactly then the
    call may change places with a measurement of the key. -/
theorem hidden_read_iff (hc : Built (.call c)) (hk : c.program.ReadsFromOutside k) :
    (¬ c.Shows (c.settings.renameKey k) ↔
      k ∈ c.program.measurementKeys ∧ ∃ ids, c.settings.effectiveIds = some ids ∧
        (∀ key ∈ c.program.controlKeys, c.settings.renameKey key ≠ c.settings.renameKey k) ∧
        ∀ id ∈ ids, ∀ key ∈ c.program.measurementKeys,
          id ++ ":" ++ c.settings.renameKey key ≠ c.settings.renameKey k) ∧
    (¬ c.Shows (c.settings.renameKey k) ↔
      ∃ o : Operation, c.settings.renameKey k ∈ o.measurementKeys ∧
        ¬ Dependent o (.ofCall c)) := by
  refine ⟨⟨fun hhidden => ?_, ?_⟩, ?_⟩
  · have hmeasured : k ∈ c.program.measurementKeys := by
      by_contra hnot
      exact hhidden (shows_of_not_measured hk.exists_mem hnot)
    refine ⟨hmeasured, ?_⟩
    cases hids : c.settings.effectiveIds with
    | none => exact absurd (shows_of_effectiveIds_eq_none hids hmeasured) hhidden
    | some ids =>
      refine ⟨ids, rfl, fun key hkey heq => ?_, fun id hid key hkey heq => ?_⟩
      · exact hhidden (shows_iff.2 (Or.inl ⟨key, hkey, heq⟩))
      · exact hhidden
          (Or.inr ((mem_measurementKeys_of_effectiveIds_eq_some hids).2 ⟨id, hid, key, hkey, heq⟩))
  · rintro ⟨-, ids, hids, hread, hmarked⟩ hshows
    have hwf : c.WellFormed := hc.wellFormed
    rcases shows_iff.1 hshows with ⟨key, hkey, heq⟩ | ⟨condition, hcondition, -⟩ | hmeasured
    · exact hread key hkey heq
    · rw [hwf.repeatUntil_eq_none hids] at hcondition
      exact absurd hcondition (by simp)
    · obtain ⟨id, hid, key, hkey, heq⟩ :=
        (mem_measurementKeys_of_effectiveIds_eq_some hids).1 hmeasured
      exact hmarked id hid key hkey heq
  · rw [shows_iff_dependent]
    push Not
    rfl

end Call

/-! ## A call that hides a read -/

/-- A program that reads a key and then measures it. -/
def readThenMeasure : Program :=
  ⟨[⟨[⟨.guarded ⟨.gate (.standard .x), [.line 0], []⟩ [.key "m"], [.line 0], []⟩]⟩,
    ⟨[⟨.measure "m", [.line 0], []⟩]⟩], []⟩

/-- That program twice, with the keys of each run marked. -/
def markedLoop : Call := ⟨readThenMeasure, { repetitions := 2, useIds := true }⟩

theorem built_readThenMeasure : Built (.program readThenMeasure) := by
  have hx : Built (.operation ⟨.gate (.standard .x), [.line 0], []⟩) :=
    .gate (Operation.ofGate_eq_ok_iff.2 ⟨rfl, by decide, rfl⟩)
  have hmeasure : Built (.operation ⟨.measure "m", [.line 0], []⟩) :=
    .measure (Operation.measure_eq_ok_iff.2 ⟨by decide, rfl⟩)
  refine .ofMoments (List.forall_mem_cons.2 ⟨?_, List.forall_mem_singleton.2 ?_⟩) []
  · exact .ofOperations (List.forall_mem_singleton.2 (hx.withConditions [.key "m"])) rfl
  · exact .ofOperations (List.forall_mem_singleton.2 hmeasure) rfl

theorem built_markedLoop : Built (.call markedLoop) :=
  .build (d := { program := readThenMeasure, repetitions := some 2, useIds := some true })
    built_readThenMeasure rfl

theorem readsFromOutside_readThenMeasure : readThenMeasure.ReadsFromOutside "m" :=
  ⟨[], _, _, rfl, by decide, by decide⟩

/-- A measurement of the key may change places with the call. -/
theorem hidden_read_markedLoop :
    Built (.call markedLoop) ∧ markedLoop.program.ReadsFromOutside "m" ∧
      ∃ o : Operation, markedLoop.settings.renameKey "m" ∈ o.measurementKeys ∧
        ¬ Dependent o (.ofCall markedLoop) := by
  have hiff := Call.hidden_read_iff built_markedLoop readsFromOutside_readThenMeasure
  refine ⟨built_markedLoop, readsFromOutside_readThenMeasure, hiff.2.1 (hiff.1.2 ?_)⟩
  exact ⟨by decide, ["0", "1"], by decide, by decide, by decide⟩

/-- The key is not shown, and an earlier measurement of the key goes into one
    moment with the call. -/
theorem markedLoop_hides_read :
    Built (.call markedLoop) ∧ markedLoop.program.ReadsFromOutside "m" ∧
      ¬ markedLoop.Shows (markedLoop.settings.renameKey "m") ∧
      (Program.ofOperations
        [⟨.measure "m", [.line 1], []⟩, .ofCall markedLoop]).moments.length = 1 :=
  ⟨built_markedLoop, readsFromOutside_readThenMeasure, by decide, by decide⟩

end QuantumProgram
