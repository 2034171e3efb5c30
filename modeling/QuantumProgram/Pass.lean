/-
  QuantumProgram — passes over programs and pipelines of passes.

  A pass transforms one program and reports into a context.  If the context is
  deep, a pass is applied to the programs of all plain calls first, from the
  inside out, except below operations with an ignored tag.  A pipeline runs
  its passes in order and stops at the first failure, keeping what the passes
  before it have done.  The only pass of the library itself is the sort.
-/
import QuantumProgram.Call
import QuantumProgram.Sorting

namespace QuantumProgram

/-- Why a pass fails. -/
inductive PassError where
  | build (error : BuildError)
  | failed (pass reason : String)

def PassError.message : PassError → String
  | build e => "IR error: " ++ e.message
  | failed pass reason => s!"Pass '{pass}' failed: {reason}"

/-- The settings of a run, and what the passes report. -/
structure PassContext where
  /-- Whether the programs of calls are transformed too. -/
  deep : Bool := false
  /-- Calls with one of these tags are left as they are. -/
  ignoredTags : List Tag := []
  /-- What the last sort did. -/
  sortStats : Option SortStats := none
  /-- What other passes have left, each under a name of its own.  A value may be of
      any type in memory; here it is a list of texts.  The sort neither reads nor
      changes these. -/
  notes : SortedMap String (List String) := ∅

/-- Whether an operation is to be left as it is. -/
def PassContext.ignores (context : PassContext) (op : Operation) : Bool :=
  op.hasAnyTag context.ignoredTags

/-- A computation in a context, which stays changed if it fails. -/
abbrev PassM := ExceptT PassError (StateM PassContext)

/-- A transformation of one program. -/
structure Pass where
  name : String
  /-- Transform a program, without looking into calls. -/
  run : Program → PassM Program
  /-- Whether the pass has something to do. -/
  shouldRun : Program → PassContext → Bool := fun _ _ => true

namespace Pass

/-- A value, or the failure of a check. -/
def ofBuild {α : Type} (mk : BuildError → PassError) : Except BuildError α → PassM α
  | .ok a => return a
  | .error e => throw (mk e)

mutual

/-- Apply a pass to the program of a plain call. -/
def applyToOperation (pass : Pass) : Operation → PassM Operation
  | ⟨.call ⟨⟨moments, programTags⟩, settings⟩, qubits, tags⟩ => do
    let call : Call := ⟨⟨moments, programTags⟩, settings⟩
    if (← get).ignores ⟨.call call, qubits, tags⟩ then return ⟨.call call, qubits, tags⟩
    let moments' ← applyToMoments pass moments
    let inner ← pass.run ⟨moments', programTags⟩
    let call' ← ofBuild (fun e => .failed pass.name e.message) (call.withProgram inner)
    return (Operation.ofCall call').withTags tags
  | ⟨.gate g, qubits, tags⟩ => return ⟨.gate g, qubits, tags⟩
  | ⟨.measure key, qubits, tags⟩ => return ⟨.measure key, qubits, tags⟩
  | ⟨.reset, qubits, tags⟩ => return ⟨.reset, qubits, tags⟩
  | ⟨.guarded op conditions, qubits, tags⟩ => return ⟨.guarded op conditions, qubits, tags⟩
termination_by structural op => op

def applyToMoments (pass : Pass) : List Moment → PassM (List Moment)
  | [] => return []
  | ⟨ops⟩ :: rest => do
    let ops' ← applyToOperations pass ops
    let m ← ofBuild .build (Moment.ofOperations ops')
    let rest' ← applyToMoments pass rest
    return m :: rest'
termination_by structural ms => ms

def applyToOperations (pass : Pass) : List Operation → PassM (List Operation)
  | [] => return []
  | op :: rest => do
    let op' ← applyToOperation pass op
    let rest' ← applyToOperations pass rest
    return op' :: rest'
termination_by structural ops => ops

end

/-- Apply a pass to a program, and in a deep context to the programs of its
    calls first. -/
def apply (pass : Pass) (p : Program) : PassM Program := do
  if (← get).deep then
    let moments ← applyToMoments pass p.moments
    pass.run ⟨moments, p.tags⟩
  else pass.run p

/-- The sort as a pass. -/
def sort (commutes : Commutation) : Pass where
  name := "InsertionSort"
  run p := do
    modify fun context =>
      { context with sortStats := some (sortWithStats commutes p.operations).2 }
    return p.sorted commutes

end Pass

/-! ## Pipelines -/

/-- Passes that are run in order. -/
abbrev Pipeline := List Pass

/-- What a pipeline leaves behind. -/
structure PassOutcome where
  program : Program
  context : PassContext
  error : Option PassError

/-- Run passes in order up to the first that fails. -/
def Pipeline.run (program : Program) (context : PassContext) : Pipeline → PassOutcome
  | [] => ⟨program, context, none⟩
  | pass :: rest =>
    if pass.shouldRun program context then
      match (pass.apply program).run.run context with
      | (.ok program', context') => Pipeline.run program' context' rest
      | (.error e, context') => ⟨program, context', some e⟩
    else Pipeline.run program context rest

/-- What a standard pipeline consists of. -/
structure PipelineOptions where
  sort : Bool := true
  deep : Bool := false
  ignoredTags : List Tag := []

namespace PipelineOptions

/-- The passes: the sort by the structural rules, if it is wanted. -/
def pipeline (options : PipelineOptions) : Pipeline :=
  if options.sort then [.sort ruleCommutes] else []

/-- The context in which they are run. -/
def context (options : PipelineOptions) : PassContext where
  deep := options.deep
  ignoredTags := options.ignoredTags

end PipelineOptions

end QuantumProgram
