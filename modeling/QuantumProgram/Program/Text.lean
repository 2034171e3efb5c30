/-
  QuantumProgram — the text of operations, calls and programs.

  An operation is shown by name, parameters and qubits, with its conditions
  and tags after it.  A program is shown with one numbered line for each moment
  and a last line for its tags.
-/
import QuantumProgram.Program.Basic

namespace QuantumProgram

/-- Qubits in parentheses. -/
def qubitsText (qubits : List Qubit) : String :=
  "(" ++ commaSeparated (qubits.map toString) ++ ")"

/-- Tags in square brackets, or nothing if there are none. -/
def tagsText (tags : List Tag) : String :=
  if tags.isEmpty then "" else "[" ++ Tag.listText tags ++ "]"

/-- The name of a gate with its parameters in square brackets. -/
def Gate.text (g : Gate) : String :=
  if g.parameters.isEmpty then g.name
  else g.name ++ "[" ++ commaSeparated (g.parameters.map toString) ++ "]"

instance : ToString Call where
  toString c :=
    s!"call[{c.program.moments.length} moments, x{c.settings.repetitions}]" ++ qubitsText c.qubits
      ++ match c.settings.repeatUntil with
         | some condition => ".until(" ++ toString condition ++ ")"
         | none => ""

namespace Operation

/-- A short name of what the operation does. -/
def name : Operation → String
  | ⟨.gate g, _, _⟩ => g.name
  | ⟨.measure _, _, _⟩ => "measure"
  | ⟨.reset, _, _⟩ => "reset"
  | ⟨.call _, _, _⟩ => "call"
  | ⟨.guarded op _, _, _⟩ => "if(" ++ op.name ++ ")"
termination_by structural op => op

protected def toString : Operation → String
  | ⟨.gate g, qs, ts⟩ => g.text ++ qubitsText qs ++ tagsText ts
  | ⟨.measure key, qs, ts⟩ => "measure[" ++ quoted key ++ "]" ++ qubitsText qs ++ tagsText ts
  | ⟨.reset, qs, ts⟩ => "reset" ++ qubitsText qs ++ tagsText ts
  | ⟨.call c, _, ts⟩ => toString c ++ tagsText ts
  | ⟨.guarded op conditions, _, ts⟩ =>
    op.toString ++ ".if(" ++ commaSeparated (conditions.map toString) ++ ")" ++ tagsText ts
termination_by structural op => op

instance : ToString Operation := ⟨Operation.toString⟩

end Operation

namespace Program

/-- A number with blanks in front of it, at least four characters wide. -/
def lineNumber (n : Nat) : String :=
  let digits := toString n
  String.ofList (List.replicate (4 - digits.length) ' ') ++ digits

/-- The lines of moments, numbered from `n`. -/
def momentLines (n : Nat) : List Moment → String
  | [] => ""
  | m :: rest =>
    lineNumber n ++ ": " ++ commaSeparated (m.operations.map toString) ++ "\n"
      ++ momentLines (n + 1) rest

instance : ToString Program where
  toString p :=
    momentLines 0 p.moments
      ++ (if p.tags.isEmpty then "" else "tags: " ++ Tag.listText p.tags ++ "\n")

end Program

end QuantumProgram
