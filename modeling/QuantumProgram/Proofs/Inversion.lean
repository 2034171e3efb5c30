/-
  QuantumProgram — inverses are well-formed.

  The inverse of an operation acts on the qubits of the operation, in
  particular that of a call, whose qubits are computed anew.  So the inverses of
  the operations of a moment make a moment (`Moment.ofOperations_inverses`).
-/
import QuantumProgram.Proofs.CheckedPacking
import QuantumProgram.Proofs.Equality

namespace QuantumProgram

/-! ## Inversion, operation by operation -/

theorem inverseOperations?_eq_some_iff {ops ops' : List Operation} :
    inverseOperations? ops = some ops' ↔
      List.Forall₂ (fun op op' => op.inverse? = some op') ops ops' := by
  induction ops generalizing ops' with
  | nil => cases ops' <;> simp [inverseOperations?]
  | cons op ops ih =>
    simp only [inverseOperations?, Option.bind_eq_bind, Option.bind_eq_some_iff, ih,
      Option.pure_def, Option.some.injEq, List.forall₂_cons_left_iff]
    constructor
    · rintro ⟨op', hop', rest', hrest', rfl⟩
      exact ⟨op', rest', hop', hrest', rfl⟩
    · rintro ⟨op', rest', hop', hrest', rfl⟩
      exact ⟨op', hop', rest', hrest', rfl⟩

/-- The moments of the inverse are the inverse moments from the last to the
    first. -/
theorem inverseMoments?_eq_some_iff {moments moments' : List Moment} :
    inverseMoments? moments = some moments' ↔
      List.Forall₂ (fun m m' => inverseOperations? m.operations = some m'.operations) moments
        moments'.reverse := by
  induction moments generalizing moments' with
  | nil => cases moments' <;> simp [inverseMoments?]
  | cons m rest ih =>
    obtain ⟨ops⟩ := m
    simp only [inverseMoments?, Option.bind_eq_bind, Option.bind_eq_some_iff, Option.pure_def,
      Option.some.injEq, List.forall₂_cons_left_iff, ih]
    constructor
    · rintro ⟨after, hafter, ops', hops', rfl⟩
      exact ⟨⟨ops'⟩, after.reverse, hops', hafter, by simp⟩
    · rintro ⟨⟨ops'⟩, after, hops', hafter, heq⟩
      refine ⟨after.reverse, by rwa [List.reverse_reverse], ops', hops', ?_⟩
      rw [← List.reverse_reverse moments', heq, List.reverse_cons]

theorem Operation.inverse?_call (c : Call) (qubits : List Qubit) (tags : List Tag) :
    (Operation.mk (.call c) qubits tags).inverse? =
      match (c.scaled (-1)).fault? c.program.isInvertible with
      | none => some ((ofCall (c.scaled (-1))).withTags tags)
      | some _ => none := by
  obtain ⟨⟨moments, programTags⟩, settings⟩ := c
  rw [Program.isInvertible, Program.inverse?, Option.isSome_map]
  rfl

/-- The inverse of a call operation, if there is one, is the call repeated
    `-1` times. -/
theorem Operation.inverse?_call_eq_some_iff {c : Call} {qubits : List Qubit} {tags : List Tag}
    {op' : Operation} :
    (Operation.mk (.call c) qubits tags).inverse? = some op' ↔
      (c.scaled (-1)).fault? c.program.isInvertible = none ∧
        op' = ⟨.call (c.scaled (-1)), c.qubits, tags⟩ := by
  rw [inverse?_call]
  cases (c.scaled (-1)).fault? c.program.isInvertible with
  | none => exact ⟨fun h => ⟨rfl, (Option.some.inj h).symm⟩, fun h => congrArg some h.2.symm⟩
  | some fault => simp

/-! ## Inverses keep the qubits -/

theorem StandardGate.arity_inverse (g : StandardGate) : g.inverse.arity = g.arity := by
  cases g <;> rfl

/-- The inverse of a custom gate, if there is one, has the inverse name. -/
theorem Gate.inverse?_custom_eq_some_iff {g : CustomGate} {g' : Gate} :
    (custom g).inverse? = some g' ↔ ∃ name, g.inverseName = some name ∧
      custom { g with name, inverseName := some g.name } = g' := by
  simp only [inverse?, CustomGate.inverse?, Option.map_map, Option.map_eq_some_iff,
    Function.comp_apply]

theorem Gate.arity_of_inverse? {g g' : Gate} (h : g.inverse? = some g') : g'.arity = g.arity := by
  cases g with
  | standard g => exact Option.some.inj h ▸ g.arity_inverse
  | custom g =>
    obtain ⟨name, -, rfl⟩ := inverse?_custom_eq_some_iff.1 h
    rfl

namespace Operation

variable {op op' : Operation}

theorem WellFormed.inverse? (h : op.WellFormed) (hinv : op.inverse? = some op') :
    op'.WellFormed := by
  cases h with
  | gate count distinct =>
    obtain ⟨g', hg', rfl⟩ := Option.map_eq_some_iff.1 hinv
    exact .gate (count.trans (Gate.arity_of_inverse? hg').symm) distinct
  | @call c tags program valid =>
    obtain ⟨hvalid, rfl⟩ := inverse?_call_eq_some_iff.1 hinv
    exact .call program hvalid
  | measure => exact absurd hinv (by simp [Operation.inverse?])
  | reset => exact absurd hinv (by simp [Operation.inverse?])
  | guarded => exact absurd hinv (by simp [Operation.inverse?])

theorem WellFormed.qubits_inverse? (h : op.WellFormed) (hinv : op.inverse? = some op') :
    op'.qubits = op.qubits := by
  cases h with
  | gate =>
    obtain ⟨g', -, rfl⟩ := Option.map_eq_some_iff.1 hinv
    rfl
  | call =>
    obtain ⟨-, rfl⟩ := inverse?_call_eq_some_iff.1 hinv
    rfl
  | measure => exact absurd hinv (by simp [Operation.inverse?])
  | reset => exact absurd hinv (by simp [Operation.inverse?])
  | guarded => exact absurd hinv (by simp [Operation.inverse?])

end Operation

namespace Moment.WellFormed

variable {m : Moment} {ops : List Operation} (h : m.WellFormed)
  (hinv : inverseOperations? m.operations = some ops)
include h hinv

/-- **The inverses of the operations of a moment make a moment.** -/
theorem inverses : (⟨ops⟩ : Moment).WellFormed := by
  rw [inverseOperations?_eq_some_iff] at hinv
  constructor
  · have hqubits : List.Forall₂ (fun op op' => op.qubits = op'.qubits) m.operations ops := by
      refine ((List.forall₂_and_left _ _).2 ⟨h.operations, hinv⟩).imp fun op op' hop => ?_
      exact (hop.1.qubits_inverse? hop.2).symm
    exact (Operation.pairwise_apart_congr (map_eq_map_iff_forall₂.2 hqubits)).1 h.apart
  · intro op' hop'
    obtain ⟨op, hop, heq⟩ := exists_of_forall₂ hinv.flip hop'
    exact (h.operations op hop).inverse? heq

/-- The check of a moment lets them through. -/
theorem ofOperations_inverses : Moment.ofOperations ops = .ok ⟨ops⟩ :=
  Moment.ofOperations_eq_ok (h.inverses hinv).apart

end Moment.WellFormed

theorem Program.WellFormed.inverse? {p q : Program} (h : p.WellFormed)
    (hinv : p.inverse? = some q) : q.WellFormed := by
  obtain ⟨moments, hmoments, rfl⟩ := Option.map_eq_some_iff.1 hinv
  rw [inverseMoments?_eq_some_iff] at hmoments
  rw [wellFormed_iff] at h ⊢
  intro m' hm'
  obtain ⟨m, hm, heq⟩ := exists_of_forall₂ hmoments.flip (List.mem_reverse.2 hm')
  obtain ⟨ops⟩ := m'
  exact (h m hm).inverses heq

end QuantumProgram
