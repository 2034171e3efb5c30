/-
  QuantumProgram — packing operations into moments.

  Items are added to a program one after the other.  A whole moment goes to
  the end; where an operation goes is up to the strategy.  The earliest
  strategy places an operation one moment after the last thing that it has to
  follow, which it finds in an index of the last moment that touches each
  qubit and each measurement key.  `scanEarliest` places an operation by
  stepping back over the moments themselves.
-/
import QuantumProgram.Moment

namespace QuantumProgram

/-- How operations are packed into moments. -/
inductive Strategy where
  /-- In the earliest moment after everything that the operation depends on. -/
  | earliest
  /-- Each operation in a moment of its own. -/
  | new
  /-- In the last moment if it can take the operation, else in a new one. -/
  | inline
  /-- The first item in a new moment, the others inline. -/
  | newThenInline
deriving DecidableEq, Repr

/-- What is added to a program. -/
inductive Item where
  | operation (operation : Operation)
  | moment (moment : Moment)

/-- The operations of an item. -/
def Item.operations : Item → List Operation
  | operation op => [op]
  | moment m => m.operations

/-! ## The index of last uses -/

/-- The last moment that touches each qubit and each key. -/
structure PlacementIndex where
  qubits : SortedMap Qubit Nat := ∅
  measured : SortedMap String Nat := ∅
  read : SortedMap String Nat := ∅

namespace PlacementIndex

open Std in
/-- Note that `k` is touched in moment `i`. -/
def bump {κ : Type} [Ord κ] [TransOrd κ] [LawfulEqOrd κ] [DecidableEq κ]
    (m : SortedMap κ Nat) (k : κ) (i : Nat) : SortedMap κ Nat :=
  m.insert k (max (m.getD k i) i)

/-- Note an operation in moment `i`. -/
def record (index : PlacementIndex) (op : Operation) (i : Nat) : PlacementIndex where
  qubits := op.qubits.foldl (bump · · i) index.qubits
  measured := op.measurementKeys.toList.foldl (bump · · i) index.measured
  read := op.controlKeys.toList.foldl (bump · · i) index.read

/-- Note all operations of moment `i`. -/
def recordMoment (index : PlacementIndex) (m : Moment) (i : Nat) : PlacementIndex :=
  m.operations.foldl (record · · i) index

/-- Note all operations of moments, numbered from `i`. -/
def recordMoments (index : PlacementIndex) (i : Nat) : List Moment → PlacementIndex
  | [] => index
  | m :: rest => (index.recordMoment m i).recordMoments (i + 1) rest

/-- The index of some moments. -/
def ofMoments (moments : List Moment) : PlacementIndex := recordMoments {} 0 moments

/-- The moments that an operation has to follow: the last use of its qubits,
    the last measurement of keys that it reads, and the last measurement and
    reading of keys that it measures. -/
def predecessors (index : PlacementIndex) (op : Operation) : List Nat :=
  op.qubits.filterMap index.qubits.get?
    ++ op.controlKeys.toList.filterMap index.measured.get?
    ++ op.measurementKeys.toList.filterMap index.measured.get?
    ++ op.measurementKeys.toList.filterMap index.read.get?

/-- The earliest moment that an operation can go to. -/
def earliest (index : PlacementIndex) (op : Operation) : Nat :=
  ((index.predecessors op).map (· + 1)).foldl max 0

end PlacementIndex

/-! ## Strategies -/

namespace Packing

/-- Add an operation to moment `i`, or to a new last moment. -/
def place (moments : List Moment) (op : Operation) (i : Nat) : List Moment :=
  if i < moments.length then moments.modify i (·.add op) else moments ++ [Moment.empty.add op]

/-- Add one item by the index, which is kept up to date. -/
def stepEarliest (state : List Moment × PlacementIndex) (item : Item) :
    List Moment × PlacementIndex :=
  let (moments, index) := state
  match item with
  | .moment m => (moments ++ [m], index.recordMoment m moments.length)
  | .operation op =>
    let i := index.earliest op
    (place moments op i, index.record op i)

/-- Add items, operations as early as possible. -/
def addEarliest (moments : List Moment) (items : List Item) : List Moment :=
  (items.foldl stepEarliest (moments, .ofMoments moments)).1

/-- Add items, each operation in a moment of its own. -/
def addNew (moments : List Moment) (items : List Item) : List Moment :=
  moments ++ items.map fun item => ⟨item.operations⟩

/-- Add an operation to the last moment if that can take it. -/
def joinLast (moments : List Moment) (op : Operation) : List Moment :=
  match moments.getLast? with
  | some last => if last.canAccept op then moments.dropLast ++ [last.add op]
    else moments ++ [⟨[op]⟩]
  | none => moments ++ [⟨[op]⟩]

/-- Add items to the last moment where it can take them.  While `fresh` holds,
    which is up to the first item of either kind, it takes none. -/
def addInline (fresh : Bool) (moments : List Moment) : List Item → List Moment
  | [] => moments
  | .moment m :: rest => addInline false (moments ++ [m]) rest
  | .operation op :: rest =>
    addInline false (if fresh then moments ++ [⟨[op]⟩] else joinLast moments op) rest

/-- The place of an operation found by stepping back from the end while the
    moment before can take the operation. -/
def scanBack (op : Operation) : (reversed : List Moment) → Nat
  | [] => 0
  | m :: rest => if m.canAccept op then scanBack op rest else rest.length + 1

/-- Add items, each operation at the place found by stepping back. -/
def scanEarliest (moments : List Moment) : List Item → List Moment
  | [] => moments
  | .moment m :: rest => scanEarliest (moments ++ [m]) rest
  | .operation op :: rest => scanEarliest (place moments op (scanBack op moments.reverse)) rest

end Packing

namespace Program

/-- Add items packed by a strategy. -/
def extend (p : Program) (items : List Item) (strategy : Strategy) : Program :=
  let moments :=
    match strategy with
    | .earliest => Packing.addEarliest p.moments items
    | .new => Packing.addNew p.moments items
    | .inline => Packing.addInline false p.moments items
    | .newThenInline => Packing.addInline true p.moments items
  { p with moments }

/-- Add one item, an operation as early as possible. -/
def append (p : Program) (item : Item) : Program := p.extend [item] .earliest

/-- The program of some items packed by a strategy. -/
def ofItems (items : List Item) (strategy : Strategy) : Program := empty.extend items strategy

/-- The program of some operations, packed as early as possible. -/
def ofOperations (ops : List Operation) : Program := ofItems (ops.map .operation) .earliest

/-- The moments of this program followed by those of another.  The tags are
    those of this one. -/
def concat (p q : Program) : Program := { p with moments := p.moments ++ q.moments }

/-- The moments `n` times in a row, none if `n` is not positive. -/
def repeated (p : Program) (n : Int64) : Program :=
  { p with moments := (List.replicate n.toInt.toNat p.moments).flatten }

end Program

end QuantumProgram
