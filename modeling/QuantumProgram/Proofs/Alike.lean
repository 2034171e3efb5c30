/-
  QuantumProgram — operations that look the same from outside.

  What a call shows and what its checks ask of its program does not depend on
  the order of the program's operations, nor on their inner structure: if two
  programs have operations that are alike, in whatever order, then so are the
  calls of them (`Operation.Alike.call`) and both calls have the same faults
  (`Program.Alike.fault?_eq`).
-/
import QuantumProgram.Call
import QuantumProgram.Proofs.SortOrder

namespace QuantumProgram

/-! ## What a program and a call show -/

theorem SortedSet.unions_perm {α : Type} [Ord α] [Std.TransOrd α] [Std.LawfulEqOrd α]
    {l l' : List (SortedSet α)} (h : l.Perm l') : unions l = unions l' :=
  SortedSet.ext fun a => by simp only [mem_unions, h.mem_iff]

/-- **A program shows what its operations show**, in whatever order it has them. -/
theorem Program.interface_congr {p q : Program}
    (h : (q.operations.map Operation.interface).Perm (p.operations.map Operation.interface)) :
    q.interface = p.interface := by
  have hshown {α : Type} (f : Interface → α) :
      (q.operations.map fun op => f op.interface).Perm
        (p.operations.map fun op => f op.interface) := by
    simpa only [List.map_map, Function.comp_def] using h.map f
  have hmeasured : q.measurementKeys = p.measurementKeys :=
    SortedSet.unions_perm (hshown Interface.measured)
  have hread : SortedSet.unions (q.operations.map Operation.controlKeys) =
      .unions (p.operations.map Operation.controlKeys) :=
    SortedSet.unions_perm (hshown Interface.read)
  have hparameters : q.parameterNames = p.parameterNames :=
    SortedSet.unions_perm (hshown Interface.parameters)
  have hunitary : q.hasUnitary = p.hasUnitary := by
    have hall := (hshown Interface.unitary).all_eq (f := id)
    rw [List.all_map, List.all_map] at hall
    exact hall
  rw [interface, hmeasured, controlKeys, readOutside, hmeasured, hread, hparameters, hunitary]
  rfl

/-- A call shows what its settings make of what its program shows. -/
theorem Call.interface_congr {p q : Program} (h : p.interface = q.interface) (s : CallSettings) :
    Call.interface ⟨p, s⟩ = Call.interface ⟨q, s⟩ := by
  obtain ⟨hmeasured, hread, hparameters, hunitary⟩ := Interface.mk.inj h
  have hkeys : Call.measurementKeys ⟨p, s⟩ = Call.measurementKeys ⟨q, s⟩ :=
    congrArg s.outerKeys hmeasured
  rw [interface, hkeys, controlKeys, readOutside, hkeys, hread, parameterNames, hparameters,
    hasUnitary, hunitary]
  rfl

/-! ## Invertibility -/

theorem inverseOperations?_isSome : ∀ ops : List Operation,
    (inverseOperations? ops).isSome = ops.all (·.inverse?.isSome)
  | [] => rfl
  | op :: rest => by
    have ih := inverseOperations?_isSome rest
    rw [inverseOperations?, List.all_cons, ← ih]
    cases op.inverse? <;> cases inverseOperations? rest <;> rfl

theorem inverseMoments?_isSome : ∀ moments : List Moment,
    (inverseMoments? moments).isSome = (moments.flatMap Moment.operations).all (·.inverse?.isSome)
  | [] => rfl
  | ⟨ops⟩ :: rest => by
    have ih := inverseMoments?_isSome rest
    rw [inverseMoments?, List.flatMap_cons, List.all_append, ← ih, ← inverseOperations?_isSome,
      Bool.and_comm]
    cases inverseMoments? rest <;> cases inverseOperations? ops <;> rfl

/-- A program has an inverse if all of its operations have one. -/
theorem Program.isInvertible_eq (p : Program) :
    p.isInvertible = p.operations.all (·.inverse?.isSome) := by
  rw [isInvertible, inverse?, Option.isSome_map, inverseMoments?_isSome, operations]

theorem Operation.inverse?_call_isSome (c : Call) (qubits : List Qubit) (tags : List Tag) :
    (Operation.mk (.call c) qubits tags).inverse?.isSome =
      ((c.scaled (-1)).fault? c.program.isInvertible).isNone := by
  obtain ⟨⟨moments, programTags⟩, settings⟩ := c
  rw [Operation.inverse?, Program.isInvertible, Program.inverse?, Option.isSome_map]
  split <;> simp_all

/-! ## What a call takes from its program -/

/-- A call acts on the qubits of its program under their new names. -/
theorem Call.qubits_congr {p q : Program} (h : p.qubits = q.qubits) (s : CallSettings)
    (bindings : Bindings) : Call.qubits ⟨p, s⟩ = Call.qubits ⟨q, { s with bindings }⟩ := by
  rw [qubits, qubits, h]
  rfl

/-- What the checks of a call ask of its program: its qubits, the keys that it measures,
    and whether it has an inverse.  What is bound does not matter. -/
theorem Call.fault?_congr {p q : Program} (hqubits : p.qubits = q.qubits)
    (hkeys : p.measurementKeys = q.measurementKeys) (hinverse : p.isInvertible = q.isInvertible)
    (s : CallSettings) (bindings : Bindings) :
    fault? p.isInvertible ⟨p, s⟩ = fault? q.isInvertible ⟨q, { s with bindings }⟩ := by
  rw [fault?, fault?, hinverse, qubitsFault?, qubitsFault?, qubits_congr hqubits s bindings,
    untilFault?, untilFault?, hkeys]
  rfl

/-! ## Operations and programs that are alike -/

/-- Two operations look the same from outside. -/
structure Operation.Alike (a b : Operation) : Prop where
  qubits : a.qubits = b.qubits
  tags : a.tags = b.tags
  interface : a.interface = b.interface
  invertible : a.inverse?.isSome = b.inverse?.isSome

/-- Two programs look the same from outside, up to their tags. -/
structure Program.Alike (p q : Program) : Prop where
  qubits : p.qubits = q.qubits
  interface : p.interface = q.interface
  invertible : p.isInvertible = q.isInvertible

theorem Operation.Alike.refl (a : Operation) : a.Alike a := ⟨rfl, rfl, rfl, rfl⟩

namespace Program

/-- **Programs of like operations are alike**, in whatever order they have them. -/
theorem Alike.of_perm {p q : Program} {f : Operation → Operation}
    (hf : ∀ op ∈ p.operations, (f op).Alike op) (hq : q.operations.Perm (p.operations.map f)) :
    q.Alike p where
  qubits := by
    refine SortedSet.ext fun x => ?_
    have hqubits : (p.operations.map f).flatMap Operation.qubits =
        p.operations.flatMap Operation.qubits := by
      rw [List.flatMap_map]
      exact List.flatMap_congr fun op hop => (hf op hop).qubits
    rw [Program.qubits, Program.qubits, SortedSet.mem_ofList, SortedSet.mem_ofList, ← hqubits,
      (hq.flatMap_right _).mem_iff]
  interface := by
    have hinterface : (p.operations.map f).map Operation.interface =
        p.operations.map Operation.interface := by
      rw [List.map_map]
      exact List.map_congr_left fun op hop => (hf op hop).interface
    exact interface_congr (hinterface ▸ hq.map _)
  invertible := by
    rw [isInvertible_eq, isInvertible_eq, hq.all_eq, List.all_map]
    refine Bool.eq_iff_iff.2 ?_
    simp only [List.all_eq_true, Function.comp_apply]
    exact forall₂_congr fun op hop => by rw [(hf op hop).invertible]

variable {p q : Program} (h : p.Alike q) (s : CallSettings)
include h

theorem Alike.call_qubits : Call.qubits ⟨p, s⟩ = Call.qubits ⟨q, s⟩ :=
  Call.qubits_congr h.qubits s s.bindings

/-- **Calls of like programs have the same faults.** -/
theorem Alike.fault?_eq :
    Call.fault? p.isInvertible ⟨p, s⟩ = Call.fault? q.isInvertible ⟨q, s⟩ :=
  Call.fault?_congr h.qubits (congrArg Interface.measured h.interface) h.invertible s s.bindings

end Program

/-- **Calls of like programs are alike.** -/
theorem Operation.Alike.call {p q : Program} (h : p.Alike q) (s : CallSettings)
    (qubits : List Qubit) (tags : List Tag) :
    Operation.Alike ⟨.call ⟨p, s⟩, qubits, tags⟩ ⟨.call ⟨q, s⟩, qubits, tags⟩ where
  qubits := rfl
  tags := rfl
  interface := by
    rw [Operation.interface_call, Operation.interface_call, Call.interface_congr h.interface]
  invertible := by
    rw [Operation.inverse?_call_isSome, Operation.inverse?_call_isSome]
    exact congrArg _ (h.fault?_eq _)

end QuantumProgram
