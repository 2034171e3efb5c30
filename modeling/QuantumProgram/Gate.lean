/-
  QuantumProgram — gates.

  A standard gate has a known meaning; a custom gate has a name and a number
  of qubits only, and an inverse only if one is named for it.
-/
import QuantumProgram.Expr

namespace QuantumProgram

/-- A complex factor. -/
structure Coefficient where
  re : Float
  im : Float
deriving Inhabited

namespace Coefficient

protected def beq (a b : Coefficient) : Bool := sameValue a.re b.re && sameValue a.im b.im

instance : BEq Coefficient := ⟨Coefficient.beq⟩

/-- The reciprocal, as conjugate over squared length. -/
def inverse (c : Coefficient) : Coefficient :=
  let n := c.re * c.re + c.im * c.im
  ⟨c.re / n, -c.im / n⟩

def feed (c : Coefficient) : List HashItem := [floatWord c.re, floatWord c.im]

end Coefficient

/-- A gate with a known meaning. -/
inductive StandardGate where
  | id
  | x
  | y
  | z
  | h
  | s
  | sdg
  | t
  | tdg
  | rx (angle : Expr)
  | ry (angle : Expr)
  | rz (angle : Expr)
  | phase (angle : Expr)
  | cx
  | cz
  | swap
  | ccx
  | globalPhase (coefficient : Coefficient)
deriving Inhabited

namespace StandardGate

def name : StandardGate → String
  | id => "id"
  | x => "x"
  | y => "y"
  | z => "z"
  | h => "h"
  | s => "s"
  | sdg => "sdg"
  | t => "t"
  | tdg => "tdg"
  | rx _ => "rx"
  | ry _ => "ry"
  | rz _ => "rz"
  | phase _ => "p"
  | cx => "cx"
  | cz => "cz"
  | swap => "swap"
  | ccx => "ccx"
  | globalPhase _ => "global_phase"

/-- The number of qubits that the gate acts on. -/
def arity : StandardGate → Nat
  | globalPhase _ => 0
  | cx | cz | swap => 2
  | ccx => 3
  | _ => 1

/-- The angle of a rotation or phase gate. -/
def angle? : StandardGate → Option Expr
  | rx e | ry e | rz e | phase e => some e
  | _ => none

/-- Whether the gate only multiplies each basis state by a factor. -/
def isDiagonal : StandardGate → Bool
  | id | z | s | sdg | t | tdg | rz _ | phase _ | cz | globalPhase _ => true
  | _ => false

/-- The gate that undoes this one. -/
def inverse : StandardGate → StandardGate
  | s => sdg
  | sdg => s
  | t => tdg
  | tdg => t
  | rx e => rx e.negated
  | ry e => ry e.negated
  | rz e => rz e.negated
  | phase e => phase e.negated
  | globalPhase c => globalPhase c.inverse
  | g => g

/-- The place of the kind of gate among all kinds. -/
def index : StandardGate → UInt64
  | id => 0
  | x => 1
  | y => 2
  | z => 3
  | h => 4
  | s => 5
  | sdg => 6
  | t => 7
  | tdg => 8
  | rx _ => 9
  | ry _ => 10
  | rz _ => 11
  | phase _ => 12
  | cx => 13
  | cz => 14
  | swap => 15
  | ccx => 16
  | globalPhase _ => 17

/-- Gates are equal if they are of one kind and have equal angles or
    factors. -/
protected def beq : StandardGate → StandardGate → Bool
  | globalPhase c, globalPhase d => c == d
  | g, g' =>
    g.index == g'.index &&
      match g.angle?, g'.angle? with
      | some e, some f => e == f
      | none, none => true
      | _, _ => false

instance : BEq StandardGate := ⟨StandardGate.beq⟩

/-- What a standard gate feeds to a hash function. -/
def feed (g : StandardGate) : List HashItem :=
  .word g.index ::
    match g with
    | globalPhase c => c.feed
    | g => (g.angle?.map Expr.feed).getD []

end StandardGate

/-- A gate known by name only. -/
structure CustomGate where
  name : String
  numQubits : UInt32
  params : List Expr
  inverseName : Option String
deriving Inhabited

namespace CustomGate

protected def beq (a b : CustomGate) : Bool :=
  a.name = b.name && a.numQubits = b.numQubits && a.params == b.params
    && a.inverseName = b.inverseName

instance : BEq CustomGate := ⟨CustomGate.beq⟩

/-- What a custom gate feeds to a hash function. -/
def feed (g : CustomGate) : List HashItem :=
  .text g.name :: .word g.numQubits.toUInt64 ::
    (feedList Expr.feed g.params ++ feedOption (fun n => [.text n]) g.inverseName)

/-- The gate of the inverse name, whose inverse in turn has this name. -/
def inverse? (g : CustomGate) : Option CustomGate :=
  g.inverseName.map fun name => { g with name, inverseName := some g.name }

end CustomGate

/-- A gate. -/
inductive Gate where
  | standard (gate : StandardGate)
  | custom (gate : CustomGate)
deriving Inhabited

namespace Gate

def name : Gate → String
  | standard g => g.name
  | custom g => g.name

/-- The number of qubits that the gate acts on. -/
def arity : Gate → Nat
  | standard g => g.arity
  | custom g => g.numQubits.toNat

def parameters : Gate → List Expr
  | standard g => g.angle?.toList
  | custom g => g.params

/-- Whether a symbol occurs in a parameter. -/
def isParameterized (g : Gate) : Bool := g.parameters.any Expr.isSymbolic

/-- The names of the symbols in the parameters. -/
def freeNames (g : Gate) : SortedSet String := .unions (g.parameters.map Expr.freeNames)

/-- Whether the gate is known to be diagonal. -/
def isDiagonal : Gate → Bool
  | standard g => g.isDiagonal
  | custom _ => false

/-- The gate that undoes this one, if it is known. -/
def inverse? : Gate → Option Gate
  | standard g => some (standard g.inverse)
  | custom g => g.inverse?.map custom

protected def beq : Gate → Gate → Bool
  | standard g, standard g' => g == g'
  | custom g, custom g' => g == g'
  | _, _ => false

instance : BEq Gate := ⟨Gate.beq⟩

/-- What a gate feeds to a hash function. -/
def feed : Gate → List HashItem
  | standard g => .word 0 :: g.feed
  | custom g => .word 1 :: g.feed

end Gate

end QuantumProgram
