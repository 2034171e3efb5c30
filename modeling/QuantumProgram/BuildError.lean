/-
  QuantumProgram — why an operation, moment or call cannot be built.
-/
import QuantumProgram.Qubit
import QuantumProgram.Text.Quoted

namespace QuantumProgram

/-- Why an operation, a moment or a call cannot be built. -/
inductive BuildError where
  /-- A qubit occurs twice in one operation. -/
  | duplicateQubit (qubit : Qubit) (operation : String)
  /-- The number of qubits is not the one that the gate needs. -/
  | qubitCount (gate : String) (expected got : Nat)
  /-- Two operations of one moment share a qubit. -/
  | overlap (first second : String) (qubit : Qubit)
  /-- There are not as many repetition ids as repetitions. -/
  | repetitionIds (expected got : Nat)
  /-- A termination condition is combined with repetitions. -/
  | untilWithRepetitions
  /-- The termination condition reads no key that the program measures. -/
  | infiniteLoop (keys : List String)
  /-- A program without an inverse is to run backwards. -/
  | notInvertible (repetitions : Int64)
deriving DecidableEq, Repr

namespace BuildError

/-- The text shown for an error. -/
def message : BuildError → String
  | duplicateQubit q op => s!"Duplicate qubit {q} in operation (op: {op})"
  | qubitCount gate expected got => s!"Gate '{gate}' requires {expected} qubits, got {got}"
  | overlap first second q =>
    s!"Overlapping operations in moment: {first} and {second} both act on {q}"
  | repetitionIds expected got => s!"Expected {expected} repetition ids, got {got}"
  | untilWithRepetitions =>
    "Cannot use repetitions or repetition ids together with repeat_until"
  | infiniteLoop keys =>
    "Infinite loop: condition on [" ++ commaSeparated (keys.map quoted)
      ++ "] is not modified in the sub-program"
  | notInvertible repetitions =>
    s!"Sub-program with {repetitions} repetitions is not invertible"

end BuildError

end QuantumProgram
