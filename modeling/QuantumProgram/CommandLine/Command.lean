/-
  QuantumProgram — the commands and their arguments.

  `Request.ofArguments` turns the arguments of a command line into a command.
  A variable of the environment stands in for an option that is not given.
-/
import QuantumProgram.CommandLine.Options
import QuantumProgram.Text.Integer

namespace QuantumProgram

/-- What can be done with files of programs and records. -/
inductive Command where
  /-- Show a summary of a program, and its moments if they are asked for. -/
  | inspect (input : String) (moments : Bool)
  /-- Sort the operations of a program. -/
  | sort (input : String) (output : Option String) (deep : Bool) (ignoredTags : List String)
  /-- Decode records. -/
  | resolve (input : String) (output : Option String) (threads : Option Nat)
  /-- Show what this program consists of. -/
  | version
deriving DecidableEq, Repr

/-- What a command line asks for. -/
inductive Request where
  | run (command : Command)
  /-- Help on the whole program or on one command. -/
  | help (topic : Option String)
  | version
  /-- The arguments make no sense. -/
  | misuse
deriving DecidableEq, Repr

/-- The request of a reader that stopped early, about the whole program or one
    command. -/
def Request.ofStop (topic : Option String) : Stop → Request
  | .help => help topic
  | .version => version
  | .misuse => misuse

/-- The variables of the environment. -/
abbrev Environment := String → Option String

/-! ## The options of each command -/

/-- A command by name. -/
structure CommandSpec where
  name : String
  help : String
  options : List OptionSpec

namespace CommandLine

def verbose : OptionSpec :=
  { letter := 'v', long := "verbose", kind := .counted,
    help := "Increase verbosity (-v, -vv, -vvv)" }

def programInput : OptionSpec :=
  { letter := 'i', long := "input", kind := .valued "INPUT",
    help := "Input file (persisted program JSON)" }

def recordInput : OptionSpec :=
  { programInput with help := "Input file (constants and operation records JSON)" }

def output : OptionSpec :=
  { letter := 'o', long := "output", kind := .valued "OUTPUT", help := "Output file" }

def moments : OptionSpec :=
  { long := "moments", kind := .flag, help := "Also print every moment" }

def deep : OptionSpec :=
  { long := "deep", kind := .flag, help := "Also sort inside sub-program calls",
    envVar := "MOMENTA_DEEP" }

def ignoreTag : OptionSpec :=
  { long := "ignore-tag", kind := .repeated "IGNORE_TAGS",
    help := "Leave sub-program calls with this tag untouched (repeatable)" }

def threads : OptionSpec :=
  { long := "threads", kind := .valued "THREADS",
    help := "Worker threads for decoding (calling thread only if omitted)",
    envVar := "MOMENTA_THREADS" }

/-- All commands. -/
def commands : List CommandSpec :=
  [ ⟨"inspect", "Show a summary of a persisted program", [programInput, verbose, moments]⟩,
    ⟨"sort", "Sort operations by qubit where they provably commute",
      [programInput, verbose, output, deep, ignoreTag]⟩,
    ⟨"resolve", "Decode a constant table and the operations that reference it",
      [recordInput, verbose, output, threads]⟩,
    ⟨"version", "Show version information", [verbose]⟩ ]

/-! ## Values -/

/-- The value of an option, given or from the environment. -/
def valueOf (env : Environment) (given : GivenOptions) (spec : OptionSpec) : Option String :=
  given.value? spec.long <|> spec.envVar.bind env

/-- A truth value. -/
def readFlag : Option String → Except Stop Bool
  | none => .ok false
  | some "true" => .ok true
  | some "false" => .ok false
  | some _ => .error .misuse

/-- A number of threads: decimal digits, perhaps after a plus sign, of at most
    64 bits. -/
def readThreads : Option String → Except Stop (Option Nat)
  | none => .ok none
  | some text =>
    let digits := match text.toList with
      | '+' :: cs => cs
      | cs => cs
    match readNat? digits with
    | some n => if n < UInt64.size then .ok (some n) else .error .misuse
    | none => .error .misuse

/-- The value of an option that has to be given. -/
def needed : Option String → Except Stop String
  | some value => .ok value
  | none => .error .misuse

/-- The command of a name with its options. -/
def commandOf (env : Environment) (name : String) (given : GivenOptions) : Except Stop Command := do
  match name with
  | "inspect" =>
    return .inspect (← needed (given.value? "input")) (given.value? "moments").isSome
  | "sort" =>
    return .sort (← needed (given.value? "input")) (given.value? "output")
      (← readFlag (valueOf env given deep)) (given.values "ignore-tag")
  | "resolve" =>
    return .resolve (← needed (given.value? "input")) (given.value? "output")
      (← readThreads (valueOf env given threads))
  | "version" => return .version
  | _ => throw .misuse

/-! ## Whole command lines -/

/-- The request of a command with its arguments. -/
def requestOf (env : Environment) (spec : CommandSpec) (args : List String) : Request :=
  let outcome : Except Stop Command := do
    match ← Arguments.readOptions spec.options .help (.nothing []) args with
    | (given, []) => commandOf env spec.name given
    | (_, _ :: _) => throw .misuse
  match outcome with
  | .ok command => .run command
  | .error stop => .ofStop (some spec.name) stop

/-- The request for help, on a command if one is named. -/
def helpRequest : List String → Request
  | [] => .help none
  | [name] => if commands.any (·.name = name) then .help (some name) else .misuse
  | _ => .misuse

end CommandLine

open CommandLine in
/-- **What the arguments of a command line ask for.** -/
def Request.ofArguments (env : Environment) (args : List String) : Request :=
  match Arguments.readOptions [verbose] .helpAndVersion (.nothing []) args with
  | .error stop => .ofStop none stop
  | .ok (_, []) => .misuse
  | .ok (_, name :: rest) =>
    match commands.find? (·.name = name) with
    | some spec => requestOf env spec rest
    | none => if name = "help" then helpRequest rest else .misuse

/-! ## Help -/

namespace CommandLine

/-- The line that explains an option, with the variable that stands in for
    it. -/
def optionRow (env : Environment) (spec : OptionSpec) : String × String :=
  let standIn := match spec.envVar with
    | some name => s!" [env: {name}=" ++ (env name).getD "" ++ "]"
    | none => ""
  (spec.usage, spec.help ++ standIn)

def helpRow : String × String := ("-h, --help", "Print help")

def versionRow : String × String := ("-V, --version", "Print version")

/-- Help on one command. -/
def commandHelp (env : Environment) (spec : CommandSpec) : String :=
  let input := if spec.options.any (·.long = "input") then " --input <INPUT>" else ""
  spec.help ++ "\n\nUsage: momenta " ++ spec.name ++ " [OPTIONS]" ++ input ++ "\n\nOptions:\n"
    ++ helpTable (spec.options.map (optionRow env) ++ [helpRow])

/-- The line that says how the program is used. -/
def usageLine : String := "Usage: momenta [OPTIONS] <COMMAND>\n"

/-- Help on the whole program. -/
def programHelp (env : Environment) : String :=
  "Momenta - moment-based quantum program tooling\n\n" ++ usageLine ++ "\nCommands:\n"
    ++ helpTable (commands.map (fun spec => (spec.name, spec.help))
        ++ [("help", "Print this message or the help of the given subcommand(s)")])
    ++ "\nOptions:\n" ++ helpTable [optionRow env verbose, helpRow, versionRow]

/-- Help on a topic. -/
def helpText (env : Environment) (topic : Option String) : String :=
  match topic.bind fun name => commands.find? (·.name = name) with
  | some spec => commandHelp env spec
  | none => programHelp env

end CommandLine

end QuantumProgram
