/-
  QuantumProgram — why records cannot be decoded.
-/
import QuantumProgram.BuildError
import QuantumProgram.Record.Argument

namespace QuantumProgram

/-- Why a gate record names no gate. -/
inductive GateFault where
  /-- A global phase needs the two parts of one factor. -/
  | phaseArguments
  /-- An argument of this kind is no angle. -/
  | notAnAngle (kind : String)
  | parameterCount (expected got : Nat)
  /-- More qubits than a gate can have. -/
  | tooManyQubits (got : Nat)
deriving DecidableEq, Repr

/-- Why a condition record is no condition. -/
inductive ConditionFault where
  | unknownComparator (symbol : String)
  | emptyKey
deriving DecidableEq, Repr

/-- Why records cannot be decoded. -/
inductive RecordError where
  /-- A place past the end of the table. -/
  | outOfRange (place size : Nat)
  /-- A call of a constant of another kind. -/
  | notAProgram (place : Nat) (kind : String)
  | bindingKey (argument : Argument)
  | bindingValue (argument : Argument)
  | gate (name : String) (fault : GateFault)
  | condition (fault : ConditionFault)
  /-- The program at this place calls itself through others. -/
  | cyclicReference (place : Nat)
  | build (error : BuildError)

def GateFault.message : GateFault → String
  | phaseArguments => "expected one [re, im] float list"
  | notAnAngle kind => s!"{kind} argument is not an angle"
  | parameterCount expected got => s!"expects {expected} parameters, got {got}"
  | tooManyQubits got => s!"{got} qubits do not fit a gate arity"

def ConditionFault.message : ConditionFault → String
  | unknownComparator symbol => s!"unknown comparator '{symbol}'"
  | emptyKey => "empty measurement key"

/-- The text shown for an error. -/
def RecordError.message : RecordError → String
  | outOfRange place size =>
    s!"Constant index {place} is out of range for a table of length {size}"
  | notAProgram place kind =>
    s!"Constant at index {place} was expected to be a program, but it is a {kind}"
  | bindingKey a =>
    "Invalid parameter key type: expected a name or symbol, found "
      ++ a.kind ++ " (" ++ a.outline ++ ")"
  | bindingValue a =>
    "Invalid parameter value type: expected a name, symbol or number, found "
      ++ a.kind ++ " (" ++ a.outline ++ ")"
  | gate name fault => "Invalid gate '" ++ name ++ "': " ++ fault.message
  | condition fault => "Invalid condition: " ++ fault.message
  | cyclicReference place => s!"Constant at index {place} is part of a reference cycle"
  | build e => "IR error: " ++ e.message

end QuantumProgram
