/-
  QuantumProgram — programs, moments, operations and calls.

  A program is a sequence of moments, a moment a list of operations that act
  on different qubits, and an operation an action on qubits.  An action may
  call a whole program, so the five types are defined together.  The types
  hold any value of this shape; the functions that build operations, moments
  and calls check what makes them valid.
-/
import QuantumProgram.Condition
import QuantumProgram.Gate
import QuantumProgram.Qubit
import QuantumProgram.Tag

namespace QuantumProgram

/-- How a call runs its program. -/
structure CallSettings where
  /-- How often the program runs; a negative number runs its inverse. -/
  repetitions : Int64 := 1
  /-- Names of the repetitions. -/
  repetitionIds : Option (List String) := none
  /-- New names of qubits. -/
  qubitMap : SortedMap Qubit Qubit := ∅
  /-- New names of measurement keys. -/
  keyMap : SortedMap String String := ∅
  /-- Values of parameters. -/
  bindings : Bindings := ∅
  /-- Whether measurement keys are marked with the repetition. -/
  useIds : Bool := false
  /-- The program is repeated until this condition holds. -/
  repeatUntil : Option Condition := none

mutual

/-- What an operation does. -/
inductive Action where
  | gate (gate : Gate)
  | measure (key : String)
  | reset
  | call (call : Call)
  /-- Do `operation` if all conditions hold. -/
  | guarded (operation : Operation) (conditions : List Condition)

/-- An action on an ordered list of qubits, with tags. -/
structure Operation where
  action : Action
  qubits : List Qubit
  tags : List Tag

/-- Operations that happen in one time slice, in the order of insertion. -/
structure Moment where
  operations : List Operation

/-- A sequence of moments, with tags. -/
structure Program where
  moments : List Moment
  tags : List Tag

/-- A program with the way in which it is run. -/
structure Call where
  program : Program
  settings : CallSettings

end

instance : Inhabited Operation := ⟨⟨.reset, [], []⟩⟩

instance : Inhabited Program := ⟨⟨[], []⟩⟩

namespace Program

/-- The program without moments and tags. -/
def empty : Program := ⟨[], []⟩

/-- All operations in time order. -/
def operations (p : Program) : List Operation := p.moments.flatMap Moment.operations

def operationCount (p : Program) : Nat := p.operations.length

/-- All qubits that an operation acts on. -/
def qubits (p : Program) : SortedSet Qubit := .ofList (p.operations.flatMap Operation.qubits)

/-- The program with further tags. -/
def withTags (p : Program) (tags : List Tag) : Program := { p with tags := p.tags ++ tags }

/-- The program without its tags. -/
def untagged (p : Program) : Program := { p with tags := [] }

end Program

namespace CallSettings

/-- The new name of a qubit. -/
def renameQubit (s : CallSettings) (q : Qubit) : Qubit := s.qubitMap.getD q q

/-- The new name of a measurement key. -/
def renameKey (s : CallSettings) (key : String) : String := s.keyMap.getD key key

/-- The most names that a list in memory can hold: a name takes 24 bytes there,
    and a list no more than `2 ^ 63 - 1`. -/
def mostNames : Nat := 384307168202282325

/-- Whether a list can hold the names of `n` repetitions. -/
def namesFit (n : Int64) : Bool := n.toInt.natAbs ≤ mostNames

/-- The numbers `0`, `1`, … as names of `n` repetitions; a single one, in
    either direction, has no name.  Here the names always fit.  In memory they
    do so only if `namesFit n`, and asking for more ends the program without an
    answer: to repeat a call has this outcome (`Call.repeated`), while the
    queries below leave it out. -/
def defaultIds (n : Int64) : Option (List String) :=
  if n.toInt.natAbs = 1 then none else some ((List.range n.toInt.natAbs).map toString)

/-- The names by which measurement keys are marked, if they are. -/
def effectiveIds (s : CallSettings) : Option (List String) :=
  if s.useIds then
    match s.repetitionIds with
    | some ids => some ids
    | none => defaultIds s.repetitions
  else none

end CallSettings

namespace Call

/-- The qubits that the call acts on: those of the program in their order,
    under their new names. -/
def qubits (c : Call) : List Qubit := c.program.qubits.toList.map c.settings.renameQubit

end Call

/-! ## Induction over the nesting -/

/-- **Induction over the nesting of programs.**  A property holds of all
    operations if it holds of gates, measurements and resets, of a call whenever
    it holds of the operations of the called program, and of a guarded operation
    whenever it holds of what is guarded. -/
@[elab_as_elim]
theorem Operation.nestingInduction {P : Operation → Prop}
    (gate : ∀ g qubits tags, P ⟨.gate g, qubits, tags⟩)
    (measure : ∀ key qubits tags, P ⟨.measure key, qubits, tags⟩)
    (reset : ∀ qubits tags, P ⟨.reset, qubits, tags⟩)
    (call : ∀ (c : Call) qubits tags, (∀ op ∈ c.program.operations, P op) →
      P ⟨.call c, qubits, tags⟩)
    (guarded : ∀ op conditions qubits tags, P op → P ⟨.guarded op conditions, qubits, tags⟩)
    (op : Operation) : P op :=
  @Operation.rec
    (fun a => ∀ qubits tags, P ⟨a, qubits, tags⟩) P
    (fun m => ∀ op ∈ m.operations, P op)
    (fun p => ∀ op ∈ p.operations, P op)
    (fun c => ∀ op ∈ c.program.operations, P op)
    (fun ops => ∀ op ∈ ops, P op)
    (fun moments => ∀ op ∈ moments.flatMap Moment.operations, P op)
    gate measure reset (fun c hc qubits tags => call c qubits tags hc)
    (fun op conditions hop qubits tags => guarded op conditions qubits tags hop)
    (fun _ qubits tags ha => ha qubits tags)
    (fun _ hops => hops) (fun _ _ hmoments => hmoments) (fun _ _ hp => hp)
    (fun _ h => absurd h List.not_mem_nil)
    (fun _ _ hop hrest op h => (List.mem_cons.1 h).elim (fun e => e ▸ hop) (hrest op))
    (fun _ h => absurd h List.not_mem_nil)
    (fun _ _ hm hrest op h => (List.mem_append.1 h).elim (hm op) (hrest op))
    op

end QuantumProgram
