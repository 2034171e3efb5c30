/-
  QuantumProgram — moments.

  The operations of a moment act on different qubits: `push` refuses an
  operation that shares a qubit with one that is there.  `canAccept` asks in
  addition that the operation neither reads nor writes a measurement key
  together with the moment in a way that depends on their order.
-/
import QuantumProgram.Operation
import QuantumProgram.Program.Interface
import QuantumProgram.Program.Text

namespace QuantumProgram

namespace Moment

def empty : Moment := ⟨[]⟩

/-- The first operation of the moment that shares a qubit with the given ones,
    and the first such qubit. -/
def firstOverlap? (qubits : List Qubit) : List Operation → Option (Operation × Qubit)
  | [] => none
  | op :: rest =>
    match qubits.find? (op.qubits.contains ·) with
    | some q => some (op, q)
    | none => firstOverlap? qubits rest

/-- The moment with a further operation at its end, not checked. -/
def add (m : Moment) (op : Operation) : Moment := ⟨m.operations ++ [op]⟩

/-- The moment with a further operation on qubits of its own. -/
def push (m : Moment) (op : Operation) : Except BuildError Moment :=
  match firstOverlap? op.qubits m.operations with
  | some (first, q) => .error (.overlap first.name op.name q)
  | none => .ok (m.add op)

/-- The moment of some operations on different qubits. -/
def ofOperations (ops : List Operation) : Except BuildError Moment := ops.foldlM push empty

/-- Whether an operation acts on one of the qubits. -/
def operatesOn (m : Moment) (qubits : List Qubit) : Bool :=
  m.operations.any fun op => op.qubits.any (qubits.contains ·)

def qubits (m : Moment) : SortedSet Qubit := .ofList (m.operations.flatMap Operation.qubits)

/-- The measurement keys written in the moment. -/
def measurementKeys (m : Moment) : SortedSet String :=
  .unions (m.operations.map Operation.measurementKeys)

/-- The measurement keys read in the moment. -/
def controlKeys (m : Moment) : SortedSet String :=
  .unions (m.operations.map Operation.controlKeys)

/-- Whether an operation can join the moment: it shares no qubit, reads no key
    measured there, and measures no key measured or read there. -/
def canAccept (m : Moment) (op : Operation) : Bool :=
  !m.operatesOn op.qubits
    && op.controlKeys.isDisjoint m.measurementKeys
    && op.measurementKeys.isDisjoint m.measurementKeys
    && op.measurementKeys.isDisjoint m.controlKeys

end Moment

end QuantumProgram
