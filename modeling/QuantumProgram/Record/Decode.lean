/-
  QuantumProgram — operations and programs from records.

  Records are decoded against a table of constants, which calls look up their
  programs in.  Everything is checked in a fixed order, and the first fault is
  the error: for a call the program, the keys of its bindings, their values,
  the termination condition, the call as a whole, and the guards.
-/
import QuantumProgram.Call
import QuantumProgram.Moment
import QuantumProgram.Record.Basic
import QuantumProgram.Record.Table

namespace QuantumProgram

/-- Computations that fail as records do. -/
abbrev RecordResult := Except RecordError

/-- A value, or the fault that kept it from being built. -/
def RecordResult.ofBuild {α : Type} (r : Except BuildError α) : RecordResult α :=
  r.mapError .build

/-- A value, or the given error. -/
def RecordResult.ofOption {α : Type} (e : RecordError) : Option α → RecordResult α
  | some a => .ok a
  | none => .error e

/-! ## Conditions -/

namespace ConditionRecord

/-- A measurement key that is not empty. -/
def nonemptyKey (key : String) : RecordResult String :=
  if key = "" then .error (.condition .emptyKey) else .ok key

/-- The condition that a record describes. -/
def decode : ConditionRecord → RecordResult Condition
  | key k => do return .key (← nonemptyKey k)
  | compare k symbol value => do
    let comparator ←
      RecordResult.ofOption (.condition (.unknownComparator symbol)) (Comparator.ofSymbol? symbol)
    return .compare (← nonemptyKey k) comparator value

end ConditionRecord

/-! ## Gates -/

namespace GateRecord

/-- The angle that an argument gives to the gate `name`. -/
def decodeAngle (name : String) (arg : ArgumentRecord) : RecordResult Expr :=
  RecordResult.ofOption (.gate name (.notAnAngle arg.argument.kind)) arg.argument.angle?

/-- The standard gates without an angle, by name. -/
def plainGates : List StandardGate :=
  [.id, .x, .y, .z, .h, .s, .sdg, .t, .tdg, .cx, .cz, .swap, .ccx]

/-- The standard gate without an angle of a name. -/
def plainGate? (name : String) : Option StandardGate := plainGates.find? fun g => g.name = name

/-- The standard gate with an angle of a name. -/
def angleGate? (name : String) : Option (Expr → StandardGate) :=
  match name with
  | "rx" => some .rx
  | "ry" => some .ry
  | "rz" => some .rz
  | "p" => some .phase
  | _ => none

/-- The gate of a name with angles, on a number of qubits: a standard gate if
    the name is that of one, else a custom gate. -/
def gateOf (name : String) (angles : List Expr) (qubits : Nat) : RecordResult Gate :=
  match plainGate? name, angleGate? name with
  | some g, _ =>
    match angles with
    | [] => .ok (.standard g)
    | _ => .error (.gate name (.parameterCount 0 angles.length))
  | none, some g =>
    match angles with
    | [e] => .ok (.standard (g e))
    | _ => .error (.gate name (.parameterCount 1 angles.length))
  | none, none =>
    if qubits < UInt32.size then
      .ok (.custom
        { name, numQubits := UInt32.ofNat qubits, params := angles, inverseName := none })
    else .error (.gate name (.tooManyQubits qubits))

/-- The factor of a global phase. -/
def phaseOf (name : String) : List ArgumentRecord → RecordResult Gate
  | [.floats [re, im]] => .ok (.standard (.globalPhase ⟨re, im⟩))
  | _ => .error (.gate name .phaseArguments)

/-- The gate that a record describes. -/
def gate (r : GateRecord) : RecordResult Gate :=
  if r.name = "global_phase" then phaseOf r.name r.args
  else do
    let angles ← r.args.mapM (decodeAngle r.name)
    gateOf r.name angles r.qubits.length

/-- The gate operation that a record describes. -/
def decode (r : GateRecord) : RecordResult Operation := do
  let g ← r.gate
  .ofBuild (Operation.ofGate g (r.qubits.map Qubit.ofWireId))

end GateRecord

/-! ## Calls -/

namespace CallRecord

/-- The keys of bindings. -/
def decodeKey (entry : ArgumentRecord × ArgumentRecord) : RecordResult BindingKey :=
  RecordResult.ofOption (.bindingKey entry.1.argument) entry.1.argument.key?

/-- The values of bindings. -/
def decodeValue (entry : ArgumentRecord × ArgumentRecord) : RecordResult BindingValue :=
  RecordResult.ofOption (.bindingValue entry.2.argument) entry.2.argument.value?

/-- The bindings; every key is checked before any value. -/
def decodeBindings (entries : List (ArgumentRecord × ArgumentRecord)) : RecordResult Bindings := do
  let keys ← entries.mapM decodeKey
  let values ← entries.mapM decodeValue
  return .ofList (keys.zip values)

/-- The call of a given program that a record describes, not checked. -/
def draft (r : CallRecord) (program : Program) (bindings : Bindings)
    (repeatUntil : Option Condition) : CallDraft where
  program := program
  repetitions := some r.repetitions.1
  repetitionIds := r.repetitions.2
  qubitMap := .ofList (r.qubitMap.map fun (q, q') => (.ofWireId q, .ofWireId q'))
  keyMap := .ofList r.keyMap
  bindings := bindings
  useIds := some r.useIds
  repeatUntil := repeatUntil

/-- The call operation that a record describes, under its guards. -/
def decode (r : CallRecord) (table : ConstantTable) : RecordResult Operation := do
  let program ← table.program r.place
  let bindings ← decodeBindings r.bindings
  let repeatUntil ← r.repeatUntil.mapM ConditionRecord.decode
  let call ← .ofBuild (r.draft program bindings repeatUntil).build
  let guards ← r.guards.mapM ConditionRecord.decode
  return (Operation.ofCall call).withConditions guards

end CallRecord

/-! ## Operations and programs -/

/-- The action that a record describes, as an operation. -/
def ActionRecord.decode (table : ConstantTable) : ActionRecord → RecordResult Operation
  | gate r => r.decode
  | measure key qubits => .ofBuild (Operation.measure key (qubits.map Qubit.ofWireId))
  | reset qubit => .ok (Operation.reset (.ofWireId qubit))
  | call r => r.decode table

/-- The operation that a record describes. -/
def OperationRecord.decode (table : ConstantTable) (r : OperationRecord) :
    RecordResult Operation := do
  return (← r.action.decode table).withTags r.tags

/-- The moment that some records describe. -/
def decodeMoment (table : ConstantTable) (records : List OperationRecord) :
    RecordResult Moment := do
  .ofBuild (Moment.ofOperations (← records.mapM (OperationRecord.decode table)))

/-- The program that a record describes. -/
def ProgramRecord.decode (table : ConstantTable) (r : ProgramRecord) : RecordResult Program := do
  return ⟨← r.moments.mapM (decodeMoment table), r.tags⟩

/-- The constant that a record describes. -/
def ConstantRecord.decode (table : ConstantTable) : ConstantRecord → RecordResult Constant
  | text s => .ok (.text s)
  | qubit id => .ok (.qubit (.ofWireId id))
  | program r => do return .program (← r.decode table)

end QuantumProgram
