/-
  QuantumProgram — running commands.

  A command reads a file, prints what it finds or does, and may write a file.
  What it prints is collected; a failure ends it, is shown with its causes,
  and leaves what has been printed before.
-/
import QuantumProgram.CommandLine.Command
import QuantumProgram.CommandLine.Files
import QuantumProgram.Pass
import QuantumProgram.Persisted.Program
import QuantumProgram.Record.Json
import QuantumProgram.Record.Resolve

namespace QuantumProgram

/-- Why a command fails. -/
inductive CommandError where
  | notFound (path : String)
  | unread (path reason : String)
  /-- The text of a file is no program. -/
  | load (path : String) (error : DecodeError)
  /-- The text of a file holds no records. -/
  | parse (path : String) (error : DecodeError)
  | constants (error : RecordError)
  | operations (error : RecordError)
  | pool (error : PoolError)
  | pass (error : PassError)
  | persist (error : PersistError)
  | unwritten (path reason : String)

namespace RecordError

/-- The texts of an error and of what caused it. -/
def causes : RecordError → List String
  | build e => [(build e).message, e.message]
  | e => [e.message]

end RecordError

namespace PassError

/-- The texts of an error and of what caused it. -/
def causes : PassError → List String
  | build e => [(build e).message, e.message]
  | e => [e.message]

end PassError

namespace CommandError

/-- The texts of an error and of what caused it. -/
def causes : CommandError → List String
  | notFound path => ["File not found: " ++ path]
  | unread path reason => ["Failed to read file: " ++ path, reason]
  | load path e =>
    ["Failed to load program from " ++ path, "JSON error: " ++ e.message, e.message]
  | parse path e => ["Failed to parse " ++ path, e.message]
  | constants e => "Failed to resolve constants" :: e.causes
  | operations e => "Failed to decode operations" :: e.causes
  | pool e => [e.message]
  | pass e => e.causes
  | persist e => ["Failed to persist program", e.message]
  | unwritten path reason => ["Failed to write file: " ++ path, reason]

/-- The text shown for an error. -/
def message (e : CommandError) : String := ": ".intercalate e.causes

end CommandError

/-- Commands collect what they print and may fail. -/
abbrev CommandM (m : Type → Type) := ExceptT CommandError (StateT String m)

namespace Command

variable {m : Type → Type} [Monad m]

/-! ## Printing, reading, writing -/

/-- Print a line. -/
def print (line : String) : CommandM m Unit := modify fun printed => printed ++ line ++ "\n"

/-- A value, or a failure. -/
def orFail {ε α : Type} (mk : ε → CommandError) : Except ε α → CommandM m α
  | .ok a => return a
  | .error e => throw (mk e)

/-- The text of a file. -/
def readFile (files : Files m) (path : String) : CommandM m String := do
  match ← (files.read path : m _) with
  | .ok text => return text
  | .error .missing => throw (.notFound path)
  | .error (.failed reason) => throw (.unread path reason)

/-- The program in a file. -/
def loadProgram (files : Files m) (path : String) : CommandM m Program := do
  orFail (.load path) (Program.ofText (← readFile files path))

/-- Write a program to a file. -/
def saveProgram (files : Files m) (p : Program) (path : String) : CommandM m Unit := do
  let text ← orFail .persist p.persist?
  let outcome ← (files.write path text : m _)
  orFail (.unwritten path) outcome

/-- Write a program to the output file, by default beside the input file. -/
def finish (files : Files m) (p : Program) (input : String) (output : Option String)
    (suffix : String) : CommandM m Unit := do
  let path := output.getD (Path.beside input suffix)
  saveProgram files p path
  print ("  Output: " ++ path)

/-! ## Commands -/

/-- Items separated by commas, or a stroke if there are none. -/
def joined (items : List String) : String := if items.isEmpty then "-" else commaSeparated items

/-- The sixteen hexadecimal digits of a hash. -/
def hashText (hash : UInt64) : String :=
  let digits := hexText hash.toNat
  String.ofList (List.replicate (16 - digits.length) '0') ++ digits

/-- The lines of a summary of a program. -/
def summary (p : Program) : List String :=
  [ "  Moments:      " ++ toString p.moments.length,
    "  Operations:   " ++ toString p.operationCount,
    "  Qubits:       " ++ joined (p.qubits.toList.map toString),
    "  Measurements: " ++ joined p.measurementKeys.toList ]
  ++ (if p.controlKeys.isEmpty then [] else ["  Reads:        " ++ joined p.controlKeys.toList])
  ++ (if p.isParameterized then ["  Parameters:   " ++ joined p.parameterNames.toList] else [])
  ++ [ "  Unitary:      " ++ toString p.hasUnitary,
       "  Terminal measurements: " ++ toString p.areAllMeasurementsTerminal ]
  ++ (if p.tags.isEmpty then [] else ["  Tags:         " ++ joined (p.tags.map toString)])
  ++ ["  Hash:         " ++ hashText p.structuralHash]

def runInspect (files : Files m) (input : String) (moments : Bool) : CommandM m Unit := do
  let p ← loadProgram files input
  print ("Program " ++ input)
  (summary p).forM print
  if moments then
    print ""
    print (toString p)

def runSort (files : Files m) (input : String) (output : Option String) (deep : Bool)
    (ignoredTags : List String) : CommandM m Unit := do
  print ("→ Sorting " ++ input ++ if deep then " (deep)" else "")
  let p ← loadProgram files input
  let options : PipelineOptions := { deep, ignoredTags := ignoredTags.map .name }
  let outcome := options.pipeline.run p options.context
  if let some e := outcome.error then throw (.pass e)
  print "✓ Sort complete"
  if let some stats := outcome.context.sortStats then
    print s!"  Moved {stats.moved} of {stats.operations} top-level operations"
  print s!"  Result: {outcome.program.moments.length} moments"
  finish files outcome.program input output "sorted"

def runResolve (files : Files m) (input : String) (output : Option String)
    (threads : Option Nat) : CommandM m Unit := do
  print ("→ Resolving " ++ input)
  let records ← orFail (.parse input) (RecordFile.decoder.ofText (← readFile files input))
  let table ← orFail .constants (ConstantTable.resolve records.constants)
  print s!"  Constants: {table.size}"
  let _ ← orFail .pool (threads.mapM Pool.ofThreads)
  let ops ← orFail .operations (decodeBatch .inOrder table records.operations)
  let p := Program.ofOperations ops
  print "✓ Resolved"
  print s!"  Result: {p.operationCount} operations in {p.moments.length} moments"
  finish files p input output "resolved"

/-- The lines that say what this program consists of. -/
def versionLines : List String :=
  [ "Momenta v0.1.0 - moment-based quantum program tooling",
    "",
    "Components:",
    "  momenta-ir       Moment-based program representation",
    "  momenta-compile  Pass framework and commutation-aware sort",
    "  momenta-serial   Constant-table decoding and persistence",
    "  momenta-work     Parallel map with progress reporting",
    "  momenta-cli      Command-line interface",
    "",
    "License:    Apache-2.0" ]

/-- Run a command. -/
def run (files : Files m) : Command → CommandM m Unit
  | .inspect input moments => runInspect files input moments
  | .sort input output deep ignoredTags => runSort files input output deep ignoredTags
  | .resolve input output threads => runResolve files input output threads
  | .version => versionLines.forM print

end Command

/-! ## Whole command lines -/

/-- How a command line ends. -/
structure Finish where
  /-- `0` for success, `1` for a failure, `2` for arguments that make no sense. -/
  code : UInt32
  printed : String
  complaint : String

/-- **Run a command line.** -/
def runCommandLine {m : Type → Type} [Monad m] (files : Files m) (env : Environment)
    (args : List String) : m Finish := do
  match Request.ofArguments env args with
  | .run command =>
    match ← (command.run files).run.run "" with
    | (.ok (), printed) => return ⟨0, printed, ""⟩
    | (.error e, printed) => return ⟨1, printed, "Error: " ++ e.message ++ "\n"⟩
  | .help topic => return ⟨0, CommandLine.helpText env topic, ""⟩
  | .version => return ⟨0, "momenta 0.1.0\n", ""⟩
  | .misuse => return ⟨2, "", CommandLine.usageLine⟩

end QuantumProgram
