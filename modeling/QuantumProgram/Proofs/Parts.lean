/-
  QuantumProgram — what is inside an operation.

  The parts of an operation are the operation itself, what it guards and the
  operations of the program that it calls, with all of their parts, each before
  those inside it.  The tags and floats of a program are those of its parts.
-/
import QuantumProgram.Program.Basic

namespace QuantumProgram

/-! ## Parts -/

mutual

/-- The operation and all operations inside it. -/
def Operation.parts : Operation → List Operation
  | ⟨.gate g, qubits, tags⟩ => [⟨.gate g, qubits, tags⟩]
  | ⟨.measure key, qubits, tags⟩ => [⟨.measure key, qubits, tags⟩]
  | ⟨.reset, qubits, tags⟩ => [⟨.reset, qubits, tags⟩]
  | ⟨.call ⟨⟨moments, programTags⟩, settings⟩, qubits, tags⟩ =>
    ⟨.call ⟨⟨moments, programTags⟩, settings⟩, qubits, tags⟩ :: momentParts moments
  | ⟨.guarded op conditions, qubits, tags⟩ => ⟨.guarded op conditions, qubits, tags⟩ :: op.parts
termination_by structural op => op

def momentParts : List Moment → List Operation
  | [] => []
  | ⟨ops⟩ :: rest => operationParts ops ++ momentParts rest
termination_by structural ms => ms

def operationParts : List Operation → List Operation
  | [] => []
  | op :: rest => op.parts ++ operationParts rest
termination_by structural ops => ops

end

/-- All operations of a program at any depth. -/
def Program.parts (p : Program) : List Operation := p.operations.flatMap Operation.parts

theorem operationParts_eq (ops : List Operation) :
    operationParts ops = ops.flatMap Operation.parts := by
  induction ops with
  | nil => rfl
  | cons op rest ih => rw [operationParts, ih, List.flatMap_cons]

theorem momentParts_eq (moments : List Moment) :
    momentParts moments = (moments.flatMap Moment.operations).flatMap Operation.parts := by
  induction moments with
  | nil => rfl
  | cons m rest ih =>
    obtain ⟨ops⟩ := m
    rw [momentParts, ih, operationParts_eq, List.flatMap_cons, List.flatMap_append]

theorem Operation.parts_call (c : Call) (qubits : List Qubit) (tags : List Tag) :
    (Operation.mk (.call c) qubits tags).parts =
      ⟨.call c, qubits, tags⟩ :: c.program.parts := by
  obtain ⟨⟨moments, programTags⟩, settings⟩ := c
  rw [Operation.parts, momentParts_eq, Program.parts, Program.operations]

/-- What an operation hands on to the operation that it guards and to those of the
    program that it calls holds of all its parts. -/
theorem Operation.forall_parts {P : Operation → Prop}
    (call : ∀ c qubits tags, P ⟨.call c, qubits, tags⟩ → ∀ op ∈ c.program.operations, P op)
    (guarded : ∀ op conditions qubits tags, P ⟨.guarded op conditions, qubits, tags⟩ → P op)
    {op : Operation} (h : P op) : ∀ part ∈ op.parts, P part := by
  induction op using Operation.nestingInduction with
  | gate | measure | reset => exact List.forall_mem_singleton.2 h
  | call c qubits tags ih =>
    rw [parts_call, List.forall_mem_cons, Program.parts, List.forall_mem_flatMap]
    exact ⟨h, fun op hop => ih op hop (call c qubits tags h op hop)⟩
  | guarded op conditions qubits tags ih =>
    rw [parts, List.forall_mem_cons]
    exact ⟨h, ih (guarded op conditions qubits tags h)⟩

/-- The parts of a part are parts. -/
theorem Operation.parts_subset {op part : Operation} (h : part ∈ op.parts) :
    part.parts ⊆ op.parts := by
  refine forall_parts (P := fun part => part.parts ⊆ op.parts) (fun c qubits tags hc => ?_)
    (fun inner conditions qubits tags hinner => ?_) (List.Subset.refl _) part h
  · intro called hcalled inside hinside
    rw [parts_call] at hc
    exact hc (List.mem_cons_of_mem _ (List.mem_flatMap.2 ⟨called, hcalled, hinside⟩))
  · exact fun inside hinside => hinner (List.mem_cons_of_mem _ hinside)

/-! ## Tags -/

/-- The tags of an operation, with those of the program that it calls. -/
def Operation.ownTags (op : Operation) : List Tag :=
  match op.action with
  | .call c => op.tags ++ c.program.tags
  | _ => op.tags

/-- All tags of an operation at any depth. -/
def Operation.tagsWithin (op : Operation) : List Tag := op.parts.flatMap Operation.ownTags

/-- All tags of a program at any depth. -/
def Program.tagsWithin (p : Program) : List Tag := p.tags ++ p.parts.flatMap Operation.ownTags

theorem Program.flatMap_parts {α : Type} (p : Program) (f : Operation → List α) :
    p.parts.flatMap f = p.operations.flatMap fun op => op.parts.flatMap f := by
  rw [Program.parts, List.flatMap_assoc]

namespace Operation

theorem tagsWithin_gate (g : Gate) (qubits : List Qubit) (tags : List Tag) :
    (Operation.mk (.gate g) qubits tags).tagsWithin = tags := by
  rw [tagsWithin, parts, List.flatMap_singleton, ownTags]

theorem tagsWithin_measure (key : String) (qubits : List Qubit) (tags : List Tag) :
    (Operation.mk (.measure key) qubits tags).tagsWithin = tags := by
  rw [tagsWithin, parts, List.flatMap_singleton, ownTags]

theorem tagsWithin_reset (qubits : List Qubit) (tags : List Tag) :
    (Operation.mk .reset qubits tags).tagsWithin = tags := by
  rw [tagsWithin, parts, List.flatMap_singleton, ownTags]

theorem tagsWithin_call (c : Call) (qubits : List Qubit) (tags : List Tag) :
    (Operation.mk (.call c) qubits tags).tagsWithin = tags ++ c.program.tagsWithin := by
  rw [tagsWithin, parts_call, List.flatMap_cons, ownTags, Program.tagsWithin, List.append_assoc]

theorem tagsWithin_guarded (op : Operation) (conditions : List Condition) (qubits : List Qubit)
    (tags : List Tag) :
    (Operation.mk (.guarded op conditions) qubits tags).tagsWithin = tags ++ op.tagsWithin := by
  rw [tagsWithin, parts, List.flatMap_cons, ownTags, tagsWithin]

end Operation

/-! ## Floats -/

/-- The numbers in an expression. -/
def Expr.floats : Expr → List Float
  | constant v => [v]
  | symbol _ | pi => []
  | neg e => e.floats
  | add a b | sub a b | mul a b | div a b => a.floats ++ b.floats

/-- The numbers in the parameters of a gate. -/
def Gate.floats : Gate → List Float
  | standard (.globalPhase c) => [c.re, c.im]
  | g => g.parameters.flatMap Expr.floats

def BindingValue.floats : BindingValue → List Float
  | float v => [v]
  | name _ | symbol _ | int _ => []

/-- The floats of an operation, without those of its parts. -/
def Operation.ownFloats (op : Operation) : List Float :=
  match op.action with
  | .gate g => g.floats
  | .call c => c.settings.bindings.toList.flatMap fun e => e.2.floats
  | _ => []

/-- All floats of an operation at any depth. -/
def Operation.floatsWithin (op : Operation) : List Float := op.parts.flatMap Operation.ownFloats

/-- All floats of a program at any depth. -/
def Program.floatsWithin (p : Program) : List Float := p.parts.flatMap Operation.ownFloats

theorem Operation.floatsWithin_gate (g : Gate) (qubits : List Qubit) (tags : List Tag) :
    (Operation.mk (.gate g) qubits tags).floatsWithin = g.floats := by
  rw [floatsWithin, parts, List.flatMap_singleton, ownFloats]

theorem Operation.floatsWithin_call (c : Call) (qubits : List Qubit) (tags : List Tag) :
    (Operation.mk (.call c) qubits tags).floatsWithin =
      (c.settings.bindings.toList.flatMap fun e => e.2.floats) ++ c.program.floatsWithin := by
  rw [floatsWithin, parts_call, List.flatMap_cons, ownFloats, Program.floatsWithin]

theorem Operation.floatsWithin_guarded (op : Operation) (conditions : List Condition)
    (qubits : List Qubit) (tags : List Tag) :
    (Operation.mk (.guarded op conditions) qubits tags).floatsWithin = op.floatsWithin := by
  rw [floatsWithin, parts, List.flatMap_cons, ownFloats, List.nil_append, floatsWithin]

end QuantumProgram
