/-
  QuantumProgram — records.

  Records are a flat encoding of operations: qubits appear as wire
  identifiers, and a call names its program by its place in a table of
  constants.  The types here hold what is written; `ProgramRecord.references`
  lists the places that a program refers to.
-/
import QuantumProgram.Condition
import QuantumProgram.Qubit
import QuantumProgram.Record.Argument
import QuantumProgram.Tag

namespace QuantumProgram

/-- How often a call runs: a number, or one run for each name. -/
inductive RepetitionRecord where
  | count (repetitions : Int64)
  | ids (names : List String)

/-- A condition; a comparator is given by its symbol. -/
inductive ConditionRecord where
  | key (key : String)
  | compare (key comparator : String) (value : Int64)

/-- A call of the program at one place of a table. -/
structure CallRecord where
  place : Nat := 0
  /-- One run without a name if this is not given. -/
  repetition : Option RepetitionRecord := none
  /-- Identifiers of qubits inside and outside. -/
  qubitMap : List (String × String) := []
  /-- Measurement keys inside and outside. -/
  keyMap : List (String × String) := []
  bindings : List (ArgumentRecord × ArgumentRecord) := []
  repeatUntil : Option ConditionRecord := none
  /-- Conditions under which the call is done. -/
  guards : List ConditionRecord := []
  useIds : Bool := false

/-- The number of repetitions, and their names if they have any. -/
def CallRecord.repetitions (r : CallRecord) : Int64 × Option (List String) :=
  match r.repetition with
  | some (.count n) => (n, none)
  | some (.ids names) => (Int64.ofNat names.length, some names)
  | none => (1, none)

/-- A gate, given by name, on qubits. -/
structure GateRecord where
  name : String
  args : List ArgumentRecord
  qubits : List String

/-- What an operation does. -/
inductive ActionRecord where
  | gate (record : GateRecord)
  | measure (key : String) (qubits : List String)
  | reset (qubit : String)
  | call (record : CallRecord)

structure OperationRecord where
  action : ActionRecord
  tags : List Tag

/-- The record with further tags. -/
def OperationRecord.withTags (r : OperationRecord) (tags : List Tag) : OperationRecord :=
  { r with tags := r.tags ++ tags }

/-- The place in the table that an operation refers to. -/
def OperationRecord.reference? (r : OperationRecord) : Option Nat :=
  match r.action with
  | .call c => some c.place
  | _ => none

structure ProgramRecord where
  moments : List (List OperationRecord)
  tags : List Tag

/-- The places that the calls of a program refer to, in order. -/
def ProgramRecord.references (p : ProgramRecord) : List Nat :=
  p.moments.flatten.filterMap OperationRecord.reference?

/-- An entry of a table of constants. -/
inductive ConstantRecord where
  | text (value : String)
  | qubit (id : String)
  | program (record : ProgramRecord)

/-- The entry of a qubit. -/
def ConstantRecord.ofQubit (q : Qubit) : ConstantRecord := qubit q.wireId

/-- The places that an entry refers to, in order. -/
def ConstantRecord.references : ConstantRecord → List Nat
  | program p => p.references
  | _ => []

/-- A table of constants and the operations that read from it. -/
structure RecordFile where
  constants : List ConstantRecord
  operations : List OperationRecord

end QuantumProgram
