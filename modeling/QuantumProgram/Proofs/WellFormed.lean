/-
  QuantumProgram — values that the checks of the library let through.

  Gates have their number of qubits, all qubits of an operation are different,
  a call is without fault and stands on the qubits of its call, and the
  operations of a moment act on different qubits, all of this to any depth.
-/
import QuantumProgram.Call
import QuantumProgram.Moment
import QuantumProgram.Proofs.Alike

namespace QuantumProgram

/-- Two operations share no qubit. -/
def Operation.Apart (a b : Operation) : Prop := ∀ q ∈ a.qubits, q ∉ b.qubits

instance (a b : Operation) : Decidable (a.Apart b) :=
  inferInstanceAs (Decidable (∀ q ∈ a.qubits, q ∉ b.qubits))

theorem Operation.Apart.symm {a b : Operation} (h : a.Apart b) : b.Apart a :=
  fun q hb ha => h q ha hb

/-- Whether operations are apart depends on their qubits only. -/
theorem Operation.pairwise_apart_congr {ops ops' : List Operation}
    (h : ops.map Operation.qubits = ops'.map Operation.qubits) :
    ops.Pairwise Apart ↔ ops'.Pairwise Apart := by
  have hmap (l : List Operation) :
      l.Pairwise Apart ↔ (l.map Operation.qubits).Pairwise fun a b => ∀ q ∈ a, q ∉ b := by
    rw [List.pairwise_map]
    rfl
  rw [hmap, hmap, h]

mutual

/-- An operation that could be built. -/
inductive Operation.WellFormed : Operation → Prop
  | gate {g : Gate} {qubits : List Qubit} {tags : List Tag}
      (count : qubits.length = g.arity) (distinct : qubits.Nodup) :
      Operation.WellFormed ⟨.gate g, qubits, tags⟩
  | measure {key : String} {qubits : List Qubit} {tags : List Tag} (distinct : qubits.Nodup) :
      Operation.WellFormed ⟨.measure key, qubits, tags⟩
  | reset {qubits : List Qubit} {tags : List Tag} (distinct : qubits.Nodup) :
      Operation.WellFormed ⟨.reset, qubits, tags⟩
  | call {c : Call} {tags : List Tag} (program : c.program.WellFormed)
      (valid : c.fault? c.program.isInvertible = none) :
      Operation.WellFormed ⟨.call c, c.qubits, tags⟩
  | guarded {op : Operation} {conditions : List Condition} {qubits : List Qubit}
      {tags : List Tag} (inner : op.WellFormed) (distinct : qubits.Nodup) :
      Operation.WellFormed ⟨.guarded op conditions, qubits, tags⟩

/-- A program that could be built. -/
inductive Program.WellFormed : Program → Prop
  | intro {p : Program} (apart : ∀ m ∈ p.moments, m.operations.Pairwise Operation.Apart)
      (operations : ∀ op ∈ p.operations, op.WellFormed) : Program.WellFormed p

end

namespace Program.WellFormed

theorem apart {p : Program} (h : p.WellFormed) :
    ∀ m ∈ p.moments, m.operations.Pairwise Operation.Apart := by
  cases h with | intro apart _ => exact apart

theorem operations {p : Program} (h : p.WellFormed) : ∀ op ∈ p.operations, op.WellFormed := by
  cases h with | intro _ operations => exact operations

end Program.WellFormed

/-- A moment that could be built. -/
structure Moment.WellFormed (m : Moment) : Prop where
  apart : m.operations.Pairwise Operation.Apart
  operations : ∀ op ∈ m.operations, op.WellFormed

/-- A call that could be built. -/
structure Call.WellFormed (c : Call) : Prop where
  program : c.program.WellFormed
  valid : c.fault? c.program.isInvertible = none

theorem Program.wellFormed_iff {p : Program} :
    p.WellFormed ↔ ∀ m ∈ p.moments, m.WellFormed := by
  constructor
  · intro h m hm
    exact ⟨h.apart m hm, fun op hop => h.operations op (List.mem_flatMap.2 ⟨m, hm, hop⟩)⟩
  · intro h
    refine ⟨fun m hm => (h m hm).apart, fun op hop => ?_⟩
    obtain ⟨m, hm, hop⟩ := List.mem_flatMap.1 hop
    exact (h m hm).operations op hop

/-- A call is without fault if each of its checks is. -/
theorem Call.fault?_eq_none_iff {c : Call} {invertible : Bool} :
    c.fault? invertible = none ↔ c.idsFault? = none ∧ c.untilFault? = none ∧
      c.directionFault? invertible = none ∧ c.qubitsFault? = none := by
  simp only [fault?, Option.orElse_eq_orElse, Option.orElse_eq_or, Option.or_eq_none_iff]

theorem Call.checked_eq_ok {c : Call} (h : c.fault? c.program.isInvertible = none) :
    c.checked = .ok c := by
  rw [checked, h]

namespace Moment

theorem firstOverlap?_eq_none_iff {qubits : List Qubit} {ops : List Operation} :
    firstOverlap? qubits ops = none ↔ ∀ op ∈ ops, ∀ q ∈ qubits, q ∉ op.qubits := by
  induction ops with
  | nil => simp [firstOverlap?]
  | cons op rest ih =>
    rw [firstOverlap?, List.forall_mem_cons, ← ih]
    cases h : qubits.find? (op.qubits.contains ·) with
    | none =>
      have hno : ∀ q ∈ qubits, q ∉ op.qubits := by simpa using h
      exact ⟨fun hrest => ⟨hno, hrest⟩, And.right⟩
    | some q =>
      have hq := List.find?_some h
      simp only [reduceCtorEq, false_iff, not_and]
      exact fun hno => absurd (by simpa using hq) (hno q (List.mem_of_find?_eq_some h))

theorem push_eq_ok {m : Moment} {op : Operation} (h : ∀ o ∈ m.operations, o.Apart op) :
    m.push op = .ok (m.add op) := by
  rw [push, firstOverlap?_eq_none_iff.2 fun o ho => (h o ho).symm]

theorem foldlM_push_eq_ok {ops : List Operation} : ∀ {m : Moment},
    (m.operations ++ ops).Pairwise Operation.Apart →
      ops.foldlM push m = .ok ⟨m.operations ++ ops⟩ := by
  induction ops with
  | nil => intro ⟨_⟩ _; rw [List.append_nil]; rfl
  | cons op rest ih =>
    intro m h
    rw [List.foldlM_cons, push_eq_ok fun o ho =>
      (List.pairwise_append.1 h).2.2 o ho op List.mem_cons_self]
    refine (ih (m := m.add op) (by simpa [add] using h)).trans ?_
    simp [add]

/-- **Operations on different qubits make a moment.** -/
theorem ofOperations_eq_ok {ops : List Operation} (h : ops.Pairwise Operation.Apart) :
    ofOperations ops = .ok ⟨ops⟩ := foldlM_push_eq_ok (m := empty) h

end Moment

end QuantumProgram
