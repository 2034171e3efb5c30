/-
  QuantumProgram — tables and batches of operations from records.

  `ConstantTable.resolve` rejects tables with cyclic references before it
  decodes anything, whichever way the cycles are searched for (`resolveBy`);
  `ConstantTable.ofRecords` decodes entry after entry, each against the ones
  before it, without that check.  `decodeBatch` decodes many operations against
  one table.  The work may be spread over a pool of threads, which need not
  deliver the results in the order of the records; they are put back into it.
-/
import QuantumProgram.Record.Decode
import QuantumProgram.Record.References

namespace QuantumProgram

/-! ## Tables -/

namespace ConstantTable

/-- The table with the next entry decoded from a record. -/
def pushRecord (table : ConstantTable) (r : ConstantRecord) : RecordResult ConstantTable := do
  return table.push (← r.decode table)

/-- The table of some records, each entry decoded against those before it. -/
def ofRecords (records : List ConstantRecord) : RecordResult ConstantTable :=
  records.foldlM pushRecord empty

/-- The references among some records. -/
def references (records : List ConstantRecord) : References :=
  records.map ConstantRecord.references

/-- The table of some records, if no entry is found that is on a cycle of
    references. -/
def resolveBy (search : CycleSearch) (records : List ConstantRecord) :
    RecordResult ConstantTable :=
  match search (references records) with
  | some place => .error (.cyclicReference place)
  | none => ofRecords records

/-- The table of some records, if they do not refer to each other in a
    cycle. -/
def resolve (records : List ConstantRecord) : RecordResult ConstantTable :=
  resolveBy References.cyclicPlace? records

end ConstantTable

/-! ## Maps over many inputs -/

/-- Why there is no pool. -/
inductive PoolError where
  | noThreads
deriving DecidableEq, Repr

def PoolError.message : PoolError → String
  | noThreads => "Worker pool needs at least one thread"

/-- Threads that share the work of a map. -/
structure Pool where
  threads : Nat
  pos : 0 < threads

/-- A pool of some threads. -/
def Pool.ofThreads (threads : Nat) : Except PoolError Pool :=
  if h : 0 < threads then .ok ⟨threads, h⟩ else .error .noThreads

/-- The order in which results come in, which may be any. -/
structure Delivery where
  arrange : {α : Type} → List α → List α
  perm : ∀ {α : Type} (results : List α), (arrange results).Perm results

/-- Results come in as the inputs are given. -/
def Delivery.inOrder : Delivery := ⟨fun results => results, fun _ => .refl _⟩

/-- The results of a function on all inputs, as they come in. -/
def Delivery.map {α β : Type} (delivery : Delivery) (f : α → β) (inputs : List α) : List β :=
  delivery.arrange (inputs.map f)

/-! ## Batches -/

/-- A result with the number of its record. -/
abbrev Numbered (α : Type) := Nat × RecordResult α

/-- The results in the order of their records, or the error of the first record
    that has one. -/
def gather {α : Type} (results : List (Numbered α)) : RecordResult (List α) :=
  (results.mergeSort fun a b => a.1 ≤ b.1).mapM (·.2)

/-- The operations that records describe, by a map whose results may come in in
    any order. -/
def decodeBatch (delivery : Delivery) (table : ConstantTable) (records : List OperationRecord) :
    RecordResult (List Operation) :=
  gather (delivery.map (fun (r, i) => (i, r.decode table)) records.zipIdx)

end QuantumProgram
