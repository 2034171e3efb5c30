/-
  QuantumProgram — tables of constants.

  A table holds decoded texts, qubits and programs.  Entries are only added at
  the end, so that a program can refer to what stands before it.
-/
import QuantumProgram.Program.Basic
import QuantumProgram.Record.Error

namespace QuantumProgram

/-- An entry of a table. -/
inductive Constant where
  | text (value : String)
  | qubit (value : Qubit)
  | program (value : Program)

/-- The kind of an entry in words. -/
def Constant.kind : Constant → String
  | text _ => "text"
  | qubit _ => "qubit"
  | program _ => "program"

/-- Constants in the order of their places. -/
structure ConstantTable where
  entries : List Constant

namespace ConstantTable

def empty : ConstantTable := ⟨[]⟩

def size (t : ConstantTable) : Nat := t.entries.length

def isEmpty (t : ConstantTable) : Bool := t.entries.isEmpty

/-- The table with a further entry at its end. -/
def push (t : ConstantTable) (c : Constant) : ConstantTable := ⟨t.entries ++ [c]⟩

/-- The entry at a place. -/
def get (t : ConstantTable) (place : Nat) : Except RecordError Constant :=
  match t.entries[place]? with
  | some c => .ok c
  | none => .error (.outOfRange place t.size)

/-- The program at a place. -/
def program (t : ConstantTable) (place : Nat) : Except RecordError Program := do
  match ← t.get place with
  | .program p => return p
  | c => throw (.notAProgram place c.kind)

end ConstantTable

end QuantumProgram
