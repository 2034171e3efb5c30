/-
  QuantumProgram — when two operations may be swapped.

  `ruleCommutes` decides from the form of two operations alone.  Operations
  that touch one measurement key, one of them writing it, are never swapped;
  apart from that, operations on different qubits always are.  On common
  qubits there are rules for diagonal gates, for rotations about one axis and
  for controlled flips; where no rule applies nothing is claimed.
-/
import QuantumProgram.Operation
import QuantumProgram.Program.Interface

namespace QuantumProgram

/-- A test of whether one operation followed by another may be swapped: yes,
    no, or not known.  It need not be symmetric. -/
abbrev Commutation := (first second : Operation) → Option Bool

namespace StandardGate

/-- Flips and rotations about the first axis. -/
def isAboutX : StandardGate → Bool
  | x | rx _ => true
  | _ => false

/-- Flips and rotations about the second axis. -/
def isAboutY : StandardGate → Bool
  | y | ry _ => true
  | _ => false

end StandardGate

/-- Whether one operation measures a key that the other measures or reads. -/
def keysConflict (first second : Operation) : Bool :=
  !first.measurementKeys.isDisjoint second.measurementKeys
    || !first.measurementKeys.isDisjoint second.controlKeys
    || !second.measurementKeys.isDisjoint first.controlKeys

/-- The qubits of the first operation that the second acts on as well. -/
def sharedQubits (first second : Operation) : List Qubit :=
  first.qubits.filter (second.qubits.contains ·)

/-- A controlled flip and another gate: a diagonal gate may only meet the
    control, a rotation about the first axis only the target. -/
def flipCommutes (flip other : List Qubit) (gate : StandardGate) (shared : List Qubit) :
    Option Bool :=
  if gate.isDiagonal then some (shared.all fun q => some q = flip[0]?)
  else if gate.isAboutX then some (other[0]? = flip[1]?)
  else none

/-- Gates on common qubits. -/
def gatesCommute (a b : Gate) (onA onB shared : List Qubit) : Option Bool :=
  if a.isDiagonal && b.isDiagonal then some true
  else
    match a, b with
    | .standard .cx, .standard .cx => some (onA[0]? ≠ onB[1]? && onA[1]? ≠ onB[0]?)
    | .standard .cx, .standard b => flipCommutes onA onB b shared
    | .standard a, .standard .cx => flipCommutes onB onA a shared
    | .standard a, .standard b =>
      if a.isAboutX && b.isAboutX || a.isAboutY && b.isAboutY then some true else none
    | _, _ => none

/-- **The structural rules of commutation.** -/
def ruleCommutes : Commutation := fun first second =>
  let shared := sharedQubits first second
  if keysConflict first second then some false
  else if shared.isEmpty then some true
  else if first == second then some true
  else
    match first.action, second.action with
    | .gate a, .gate b => gatesCommute a b first.qubits second.qubits shared
    | .measure _, _ => some false
    | .reset, _ => some false
    | _, .measure _ => some false
    | _, .reset => some false
    | _, _ => none

end QuantumProgram
