/-
  QuantumProgram — building and changing operations.

  `Operation.ofGate` checks the number of qubits and that none occurs twice,
  `Operation.measure` the latter.  A call acts on the qubits of its program
  under their new names.  Guarding a guarded operation without tags of its own
  extends its conditions; otherwise the whole operation is wrapped.
-/
import QuantumProgram.BuildError
import QuantumProgram.Program.Equality

namespace QuantumProgram

/-- The first qubit of a list that occurs before, in the list or in `seen`. -/
def firstRepeated? (seen : List Qubit) : List Qubit → Option Qubit
  | [] => none
  | q :: qs => if seen.contains q then some q else firstRepeated? (q :: seen) qs

/-- Fail if a qubit occurs twice. -/
def checkDistinct (qubits : List Qubit) (operation : String) : Except BuildError Unit :=
  match firstRepeated? [] qubits with
  | some q => .error (.duplicateQubit q operation)
  | none => .ok ()

namespace Operation

/-! ## Building -/

/-- A gate on qubits, as many as it needs and all different. -/
def ofGate (gate : Gate) (qubits : List Qubit) : Except BuildError Operation := do
  if qubits.length ≠ gate.arity then
    throw (.qubitCount gate.name gate.arity qubits.length)
  checkDistinct qubits gate.name
  return ⟨.gate gate, qubits, []⟩

/-- A measurement of different qubits into a key. -/
def measure (key : String) (qubits : List Qubit) : Except BuildError Operation := do
  checkDistinct qubits "measure"
  return ⟨.measure key, qubits, []⟩

def reset (qubit : Qubit) : Operation := ⟨.reset, [qubit], []⟩

/-- A call as an operation on the call's qubits. -/
def ofCall (call : Call) : Operation := ⟨.call call, call.qubits, []⟩

/-! ## Parts -/

/-- The gate of a plain gate operation. -/
def gate? (op : Operation) : Option Gate :=
  match op.action with
  | .gate g => some g
  | _ => none

/-- The call of a plain call operation. -/
def call? (op : Operation) : Option Call :=
  match op.action with
  | .call c => some c
  | _ => none

/-- The conditions of a guarded operation. -/
def conditions (op : Operation) : List Condition :=
  match op.action with
  | .guarded _ conditions => conditions
  | _ => []

def isMeasurement (op : Operation) : Bool :=
  match op.action with
  | .measure _ => true
  | _ => false

/-- Whether the operation is a plain gate known to be diagonal. -/
def isDiagonal (op : Operation) : Bool := op.gate?.any Gate.isDiagonal

/-- Whether a tag of the operation is among the given ones. -/
def hasAnyTag (op : Operation) (tags : List Tag) : Bool := op.tags.any (tags.contains ·)

/-! ## Changing -/

/-- The operation with further tags after its own. -/
def withTags (op : Operation) (tags : List Tag) : Operation := { op with tags := op.tags ++ tags }

/-- The operation without its tags. -/
def untagged (op : Operation) : Operation := { op with tags := [] }

/-- The operation, done only if all conditions hold. -/
def withConditions (op : Operation) (conditions : List Condition) : Operation :=
  if conditions.isEmpty then op
  else
    match op with
    | ⟨.guarded inner existing, qubits, []⟩ => ⟨.guarded inner (existing ++ conditions), qubits, []⟩
    | op => ⟨.guarded op conditions, op.qubits, []⟩

end Operation

end QuantumProgram
