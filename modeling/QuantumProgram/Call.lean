/-
  QuantumProgram — building calls, running them backwards and repeating them.

  A call is valid if it has as many ids as repetitions, if a termination
  condition stands alone and can change, if a negative number of repetitions
  finds an inverse, and if the renaming keeps qubits apart; the first of these
  that fails, in this order, is reported.  Inverting a program reverses its
  moments and inverts every operation, and a call is inverted by repeating it
  `-1` times, so that inversion and validity of calls are defined together.
  To repeat a call makes the names of the repetitions first, and there is no
  answer where these do not fit into memory.
-/
import QuantumProgram.Operation
import QuantumProgram.Program.Interface

namespace QuantumProgram

/-! ## Validity -/

namespace Call

/-- The absolute number of repetitions. -/
def runs (c : Call) : Nat := c.settings.repetitions.toInt.natAbs

/-- The ids do not fit the number of repetitions. -/
def idsFault? (c : Call) : Option BuildError :=
  match c.settings.repetitionIds with
  | some ids => if ids.length ≠ c.runs then some (.repetitionIds c.runs ids.length) else none
  | none => none

/-- The termination condition is combined with repetitions, or nothing that
    the program measures can make it true. -/
def untilFault? (c : Call) : Option BuildError :=
  match c.settings.repeatUntil with
  | none => none
  | some condition =>
    if c.settings.useIds || c.settings.repetitions ≠ 1 then some .untilWithRepetitions
    else if (c.program.measurementKeys.map c.settings.renameKey).contains condition.measured then
      none
    else some (.infiniteLoop [condition.measured])

/-- The program is to run backwards and cannot. -/
def directionFault? (invertible : Bool) (c : Call) : Option BuildError :=
  if c.settings.repetitions < 0 && !invertible then some (.notInvertible c.settings.repetitions)
  else none

/-- Two qubits of the program get one name. -/
def qubitsFault? (c : Call) : Option BuildError :=
  (firstRepeated? [] c.qubits).map fun q => .duplicateQubit q "call"

/-- The first fault of a call, if its program is invertible or not as
    given. -/
def fault? (invertible : Bool) (c : Call) : Option BuildError :=
  c.idsFault? <|> c.untilFault? <|> c.directionFault? invertible <|> c.qubitsFault?

/-! ## Repetition -/

/-- A product of 64-bit numbers, held at the ends of their range. -/
def saturatingMul (a b : Int64) : Int64 :=
  Int64.ofInt (max Int64.minValue.toInt (min Int64.maxValue.toInt (a.toInt * b.toInt)))

/-- The ids, if there are any, of a call that is repeated `factor` times: each
    name of the outer repetitions stands before each id of the inner ones.  The
    outer names are asked for whether there are ids or not. -/
def repeatedIds (factor : Int64) (ids? : Option (List String)) : Option (List String) :=
  match ids?, CallSettings.defaultIds factor with
  | some ids, some outer => some (outer.flatMap fun o => ids.map fun id => o ++ "-" ++ id)
  | ids?, _ => ids?

/-- The call with its number of repetitions multiplied, not checked. -/
def scaled (c : Call) (factor : Int64) : Call :=
  { c with settings :=
    { c.settings with
      repetitions := saturatingMul c.settings.repetitions factor
      repetitionIds := repeatedIds factor c.settings.repetitionIds } }

/-- What keeps a call from being repeated. -/
inductive RepeatError where
  /-- The repeated call would not be valid. -/
  | invalid (fault : BuildError)
  /-- The names of the outer repetitions do not fit into memory.  The program
      that asks for the call ends here, without an answer. -/
  | tooManyNames

end Call

/-! ## Inversion -/

mutual

/-- The operation that undoes this one, if it is known.  Tags are kept. -/
def Operation.inverse? : Operation → Option Operation
  | ⟨.gate g, qubits, tags⟩ => g.inverse?.map fun g' => ⟨.gate g', qubits, tags⟩
  | ⟨.call ⟨⟨moments, programTags⟩, settings⟩, _, tags⟩ =>
    let c := Call.scaled ⟨⟨moments, programTags⟩, settings⟩ (-1)
    match c.fault? (inverseMoments? moments).isSome with
    | none => some ((Operation.ofCall c).withTags tags)
    | some _ => none
  | ⟨.measure _, _, _⟩ => none
  | ⟨.reset, _, _⟩ => none
  | ⟨.guarded _ _, _, _⟩ => none
termination_by structural op => op

/-- The inverses of some moments, in reversed order. -/
def inverseMoments? : List Moment → Option (List Moment)
  | [] => some []
  | ⟨ops⟩ :: rest => do
    let after ← inverseMoments? rest
    let ops' ← inverseOperations? ops
    return after ++ [⟨ops'⟩]
termination_by structural ms => ms

/-- The inverses of some operations, in the same order. -/
def inverseOperations? : List Operation → Option (List Operation)
  | [] => some []
  | op :: rest => do
    let op' ← op.inverse?
    let rest' ← inverseOperations? rest
    return op' :: rest'
termination_by structural ops => ops

end

namespace Program

/-- The program that undoes this one, if every operation has an inverse. -/
def inverse? (p : Program) : Option Program :=
  (inverseMoments? p.moments).map fun moments => ⟨moments, p.tags⟩

def isInvertible (p : Program) : Bool := p.inverse?.isSome

/-- The program itself, or its inverse; no other powers are defined. -/
def pow? (p : Program) (exponent : Int64) : Option Program :=
  if exponent = 1 then some p else if exponent = -1 then p.inverse? else none

end Program

namespace Call

/-- The call, if it is valid. -/
def checked (c : Call) : Except BuildError Call :=
  match c.fault? c.program.isInvertible with
  | some fault => .error fault
  | none => .ok c

/-- The call with its number of repetitions multiplied by `factor`. -/
def repeated (c : Call) (factor : Int64) : Except RepeatError Call :=
  if CallSettings.namesFit factor then (c.scaled factor).checked.mapError .invalid
  else .error .tooManyNames

/-- The call run backwards, if it can be. -/
def inverse? (c : Call) : Option Call := (c.repeated (-1)).toOption

/-- The same call of another program. -/
def withProgram (c : Call) (program : Program) : Except BuildError Call :=
  checked { c with program }

end Call

/-! ## Drafts -/

/-- A call that is being put together.  What is not given has a default. -/
structure CallDraft where
  program : Program
  repetitions : Option Int64 := none
  repetitionIds : Option (List String) := none
  qubitMap : SortedMap Qubit Qubit := ∅
  keyMap : SortedMap String String := ∅
  bindings : Bindings := ∅
  useIds : Option Bool := none
  repeatUntil : Option Condition := none

namespace CallDraft

/-- The number of repetitions: as many as there are ids, or one. -/
def defaultRepetitions (d : CallDraft) : Int64 :=
  match d.repetitionIds with
  | some ids => Int64.ofNat ids.length
  | none => 1

/-- The drafted call, not checked.  Ids are used if they are given. -/
def call (d : CallDraft) : Call where
  program := d.program
  settings :=
    { repetitions := d.repetitions.getD d.defaultRepetitions
      repetitionIds := d.repetitionIds
      qubitMap := d.qubitMap
      keyMap := d.keyMap
      bindings := d.bindings
      useIds := d.useIds.getD d.repetitionIds.isSome
      repeatUntil := d.repeatUntil }

/-- The drafted call, if it is valid. -/
def build (d : CallDraft) : Except BuildError Call := d.call.checked

end CallDraft

end QuantumProgram
