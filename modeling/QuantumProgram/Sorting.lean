/-
  QuantumProgram — sorting operations as far as they commute.

  Operations are put in order of their qubits.  Each one moves back over the
  operations placed before it as long as its qubits come strictly earlier and
  the swap is proved; an answer that is not known counts as a refusal.
-/
import QuantumProgram.Commutation
import QuantumProgram.Program.Packing

namespace QuantumProgram

/-- Put a qubit at its place in an ordered list. -/
def insertQubit (q : Qubit) : List Qubit → List Qubit
  | [] => [q]
  | r :: rest => if compare q r = .gt then r :: insertQubit q rest else q :: r :: rest

/-- The qubits of an operation in order, by which operations are sorted. -/
def Operation.sortKey (op : Operation) : List Qubit := op.qubits.foldr insertQubit []

/-- Whether the key of the first operation comes strictly before that of the
    second, item by item. -/
def Operation.keyLt (a b : Operation) : Bool := compare a.sortKey b.sortKey = .lt

/-- What a run of the sort did. -/
structure SortStats where
  /-- The number of operations. -/
  operations : Nat := 0
  /-- How many were placed before an earlier operation. -/
  moved : Nat := 0
deriving DecidableEq, Repr

namespace Sorting

/-- Whether `op` may move before the operation `tail` that is placed in front
    of it. -/
def passes (commutes : Commutation) (tail op : Operation) : Bool :=
  op.keyLt tail && commutes tail op = some true

/-- Place an operation; the placed ones are in reversed order. -/
def insertBack (commutes : Commutation) (op : Operation) : List Operation → List Operation
  | [] => [op]
  | tail :: rest =>
    if passes commutes tail op then tail :: insertBack commutes op rest else op :: tail :: rest

/-- Whether an operation moves at all. -/
def moves (commutes : Commutation) (op : Operation) : (reversed : List Operation) → Bool
  | [] => false
  | tail :: _ => passes commutes tail op

/-- Place an operation and note what happened. -/
def step (commutes : Commutation) (state : List Operation × SortStats) (op : Operation) :
    List Operation × SortStats :=
  let (reversed, stats) := state
  (insertBack commutes op reversed,
    { operations := stats.operations + 1
      moved := if moves commutes op reversed then stats.moved + 1 else stats.moved })

end Sorting

/-- The operations in their final order, and what the run did. -/
def sortWithStats (commutes : Commutation) (ops : List Operation) : List Operation × SortStats :=
  let (reversed, stats) := ops.foldl (Sorting.step commutes) ([], {})
  (reversed.reverse, stats)

/-- The operations sorted as far as they commute. -/
def sortOperations (commutes : Commutation) (ops : List Operation) : List Operation :=
  (sortWithStats commutes ops).1

/-- The program of the sorted operations, packed as early as possible, with
    its tags. -/
def Program.sorted (commutes : Commutation) (p : Program) : Program :=
  (ofOperations (sortOperations commutes p.operations)).withTags p.tags

end QuantumProgram
