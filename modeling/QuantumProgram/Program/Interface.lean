/-
  QuantumProgram — what an operation shows to its surroundings.

  An operation is asked for the measurement keys that it writes and reads, for
  its free parameters, and whether it applies a unitary.  Each of these queries
  is answered alone (`Query`), from the answers of the operations inside.  A
  program shows only the keys that it reads but never measures itself; a call
  shows what its program shows under the new names, each key marked with the
  repetition where that is asked for.  The four answers together are the
  interface of the operation.
-/
import QuantumProgram.Program.Basic

namespace QuantumProgram

/-! ## Queries over the nesting -/

/-- How a query is answered: for plain operations at once, for a call from the
    answers of the operations of its program in time order, and for a guarded
    operation from the answer of what is guarded. -/
structure Query (α : Type) where
  gate : Gate → α
  measure : (key : String) → (qubits : List Qubit) → α
  reset : α
  call : Call → List α → α
  guarded : α → List Condition → α

section
variable {α : Type} (query : Query α)

mutual

/-- The answer of an operation. -/
def Operation.ask : Operation → α
  | ⟨.gate g, _, _⟩ => query.gate g
  | ⟨.measure key, qubits, _⟩ => query.measure key qubits
  | ⟨.reset, _, _⟩ => query.reset
  | ⟨.call ⟨⟨moments, programTags⟩, settings⟩, _, _⟩ =>
    query.call ⟨⟨moments, programTags⟩, settings⟩ (askMoments moments)
  | ⟨.guarded op conditions, _, _⟩ => query.guarded op.ask conditions
termination_by structural op => op

/-- The answers of the operations of some moments, in time order. -/
def askMoments : List Moment → List α
  | [] => []
  | ⟨ops⟩ :: rest => askOperations ops ++ askMoments rest
termination_by structural ms => ms

/-- The answers of some operations. -/
def askOperations : List Operation → List α
  | [] => []
  | op :: rest => op.ask :: askOperations rest
termination_by structural ops => ops

end

theorem askOperations_eq (ops : List Operation) :
    askOperations query ops = ops.map (Operation.ask query) := by
  induction ops with
  | nil => rfl
  | cons op rest ih => rw [askOperations, ih, List.map_cons]

theorem askMoments_eq (ms : List Moment) :
    askMoments query ms = (ms.flatMap Moment.operations).map (Operation.ask query) := by
  induction ms with
  | nil => rfl
  | cons m rest ih =>
    obtain ⟨ops⟩ := m
    rw [askMoments, ih, askOperations_eq, List.flatMap_cons, List.map_append]

/-- **A call is answered from the operations of its program.** -/
theorem Operation.ask_call (c : Call) (qubits : List Qubit) (tags : List Tag) :
    (Operation.mk (.call c) qubits tags).ask query =
      query.call c (c.program.operations.map (Operation.ask query)) := by
  obtain ⟨⟨moments, programTags⟩, settings⟩ := c
  rw [Operation.ask, askMoments_eq, Program.operations]

end

/-! ## Keys written -/

/-- The keys that a call shows for those of its program: renamed, and marked
    with each repetition that has a name. -/
def CallSettings.outerKeys (s : CallSettings) (inner : SortedSet String) : SortedSet String :=
  let keys := inner.map s.renameKey
  match s.effectiveIds with
  | some ids => .ofList (ids.flatMap fun id => keys.toList.map fun key => id ++ ":" ++ key)
  | none => keys

/-- The query for the measurement keys written. -/
def Query.measured : Query (SortedSet String) where
  gate _ := ∅
  measure key _ := .singleton key
  reset := ∅
  call c parts := c.settings.outerKeys (.unions parts)
  guarded keys _ := keys

/-- The measurement keys written. -/
def Operation.measurementKeys (op : Operation) : SortedSet String := op.ask .measured

/-- The measurement keys written anywhere. -/
def Program.measurementKeys (p : Program) : SortedSet String :=
  .unions (p.operations.map Operation.measurementKeys)

/-- The measurement keys written, renamed and marked with the repetition. -/
def Call.measurementKeys (c : Call) : SortedSet String :=
  c.settings.outerKeys c.program.measurementKeys

theorem Operation.measurementKeys_call (c : Call) (qubits : List Qubit) (tags : List Tag) :
    (Operation.mk (.call c) qubits tags).measurementKeys = c.measurementKeys :=
  ask_call .measured c qubits tags

/-! ## Keys read -/

/-- The keys that a program shows as read, of those that its operations read:
    the ones that it measures nowhere. -/
def Program.readOutside (p : Program) (read : SortedSet String) : SortedSet String :=
  let measured := p.measurementKeys
  read.filter fun key => !measured.contains key

/-- The keys that a call shows as read for those of its program: renamed,
    together with that of the condition to end, without those that it
    measures. -/
def Call.readOutside (c : Call) (read : SortedSet String) : SortedSet String :=
  let keys := (read.map c.settings.renameKey).insertMany
    (c.settings.repeatUntil.toList.map (·.measured))
  let measured := c.measurementKeys
  keys.filter fun key => !measured.contains key

/-- The query for the measurement keys read. -/
def Query.read : Query (SortedSet String) where
  gate _ := ∅
  measure _ _ := ∅
  reset := ∅
  call c parts := c.readOutside (c.program.readOutside (.unions parts))
  guarded keys conditions := keys.insertMany (conditions.map (·.measured))

/-- The measurement keys read. -/
def Operation.controlKeys (op : Operation) : SortedSet String := op.ask .read

/-- The keys that are read and measured nowhere in the program. -/
def Program.controlKeys (p : Program) : SortedSet String :=
  p.readOutside (.unions (p.operations.map Operation.controlKeys))

/-- The measurement keys read from outside. -/
def Call.controlKeys (c : Call) : SortedSet String := c.readOutside c.program.controlKeys

/-- A guarded operation reads the keys of its conditions as well. -/
theorem Operation.controlKeys_guarded (op : Operation) (conditions : List Condition)
    (qubits : List Qubit) (tags : List Tag) :
    (Operation.mk (.guarded op conditions) qubits tags).controlKeys =
      op.controlKeys.insertMany (conditions.map (·.measured)) := rfl

theorem Operation.controlKeys_call (c : Call) (qubits : List Qubit) (tags : List Tag) :
    (Operation.mk (.call c) qubits tags).controlKeys = c.controlKeys :=
  ask_call .read c qubits tags

/-! ## Parameters -/

/-- The names that a parameter of the called program has outside. -/
def Bindings.outerNames (m : Bindings) (name : String) : SortedSet String :=
  ((Expr.symbol name).resolve m).freeNames

/-- The query for the names of free parameters. -/
def Query.parameters : Query (SortedSet String) where
  gate g := g.freeNames
  measure _ _ := ∅
  reset := ∅
  call c parts := .unions ((SortedSet.unions parts).toList.map c.settings.bindings.outerNames)
  guarded names _ := names

/-- The names of free parameters. -/
def Operation.parameterNames (op : Operation) : SortedSet String := op.ask .parameters

/-- The names of free parameters. -/
def Program.parameterNames (p : Program) : SortedSet String :=
  .unions (p.operations.map Operation.parameterNames)

/-- The parameters that are still free after binding. -/
def Call.parameterNames (c : Call) : SortedSet String :=
  .unions (c.program.parameterNames.toList.map c.settings.bindings.outerNames)

theorem Operation.parameterNames_call (c : Call) (qubits : List Qubit) (tags : List Tag) :
    (Operation.mk (.call c) qubits tags).parameterNames = c.parameterNames :=
  ask_call .parameters c qubits tags

def Operation.isParameterized (op : Operation) : Bool := !op.parameterNames.isEmpty

def Program.isParameterized (p : Program) : Bool := !p.parameterNames.isEmpty

/-! ## Unitaries -/

/-- The query whether a unitary is applied. -/
def Query.unitary : Query Bool where
  gate _ := true
  measure _ _ := false
  reset := false
  call c parts := c.settings.repeatUntil.isNone && parts.all id
  guarded _ _ := false

/-- Whether the operation applies a unitary. -/
def Operation.hasUnitary (op : Operation) : Bool := op.ask .unitary

/-- Whether every operation applies a unitary. -/
def Program.hasUnitary (p : Program) : Bool := p.operations.all Operation.hasUnitary

/-- Whether the call applies a unitary: its program does, and it is no loop. -/
def Call.hasUnitary (c : Call) : Bool := c.settings.repeatUntil.isNone && c.program.hasUnitary

theorem Operation.hasUnitary_call (c : Call) (qubits : List Qubit) (tags : List Tag) :
    (Operation.mk (.call c) qubits tags).hasUnitary = c.hasUnitary := by
  have hall : (c.program.operations.map (ask .unitary)).all id = c.program.hasUnitary := by
    rw [List.all_map]
    rfl
  rw [hasUnitary, ask_call]
  exact congrArg (c.settings.repeatUntil.isNone && ·) hall

/-! ## Measurements -/

namespace Program

/-- Whether some operation writes a measurement key. -/
def hasMeasurements (p : Program) : Bool :=
  p.operations.any fun op => !op.measurementKeys.isEmpty

/-- Whether no operation of the list acts on a qubit of `measured`, or on a
    qubit that an earlier operation of the list has measured. -/
def terminalAfter (measured : List Qubit) : List Operation → Bool
  | [] => true
  | op :: rest =>
    if op.qubits.any (measured.contains ·) then false
    else terminalAfter (if op.measurementKeys.isEmpty then measured else measured ++ op.qubits) rest

/-- Whether no operation follows a measurement on one of its qubits. -/
def areAllMeasurementsTerminal (p : Program) : Bool := terminalAfter [] p.operations

end Program

/-! ## The four answers together -/

/-- What an operation, a program or a call shows to its surroundings. -/
structure Interface where
  /-- Measurement keys written. -/
  measured : SortedSet String
  /-- Measurement keys read. -/
  read : SortedSet String
  /-- Names of free parameters. -/
  parameters : SortedSet String
  /-- Whether a unitary is applied. -/
  unitary : Bool

def Operation.interface (op : Operation) : Interface :=
  ⟨op.measurementKeys, op.controlKeys, op.parameterNames, op.hasUnitary⟩

def Program.interface (p : Program) : Interface :=
  ⟨p.measurementKeys, p.controlKeys, p.parameterNames, p.hasUnitary⟩

def Call.interface (c : Call) : Interface :=
  ⟨c.measurementKeys, c.controlKeys, c.parameterNames, c.hasUnitary⟩

/-- **A call operation shows what its call shows.** -/
theorem Operation.interface_call (c : Call) (qubits : List Qubit) (tags : List Tag) :
    (Operation.mk (.call c) qubits tags).interface = c.interface := by
  rw [interface, measurementKeys_call, controlKeys_call, parameterNames_call, hasUnitary_call,
    Call.interface]

end QuantumProgram
