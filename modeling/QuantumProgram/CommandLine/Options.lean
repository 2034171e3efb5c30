/-
  QuantumProgram — options on a command line.

  An option is given by its long name or, where it has one, by a letter.  Its
  value stands after `=`, follows the letter directly, or is the next
  argument, which may then not look like an option.  Letters without a value
  can be joined.  `readOptions` reads options up to the first argument that is
  none.
-/

namespace QuantumProgram

/-- How often an option may be given, and whether it has a value. -/
inductive OptionKind where
  /-- Given at most once, without a value. -/
  | flag
  /-- Given any number of times, without a value. -/
  | counted
  /-- Given at most once, with a value of the given name. -/
  | valued (name : String)
  /-- Given any number of times, with a value of the given name each time. -/
  | repeated (name : String)

namespace OptionKind

/-- The name of the value, if the option has one. -/
def valueName? : OptionKind → Option String
  | valued name | repeated name => some name
  | _ => none

/-- Whether the option may be given more than once. -/
def mayRepeat : OptionKind → Bool
  | counted | repeated _ => true
  | _ => false

end OptionKind

/-- An option. -/
structure OptionSpec where
  letter : Option Char := none
  long : String
  kind : OptionKind
  help : String
  /-- A variable of the environment that stands in for the option. -/
  envVar : Option String := none

/-- Why reading options stops early. -/
inductive Stop where
  | help
  | version
  | misuse
deriving DecidableEq, Repr

/-- Options that were given, with their values; flags have the value
    `true`. -/
abbrev GivenOptions := List (String × String)

namespace GivenOptions

/-- The values given to an option. -/
def values (given : GivenOptions) (long : String) : List String :=
  (given.filter (·.1 = long)).map (·.2)

/-- The value given to an option. -/
def value? (given : GivenOptions) (long : String) : Option String := (given.values long).head?

/-- Note an option. -/
def note (given : GivenOptions) (spec : OptionSpec) (value : String) : Except Stop GivenOptions :=
  if !spec.kind.mayRepeat && given.any (·.1 = spec.long) then .error .misuse
  else .ok (given ++ [(spec.long, value)])

end GivenOptions

/-- The options by which help and the version are asked for. -/
inductive Inquiries where
  | help
  | helpAndVersion
deriving DecidableEq, Repr

namespace Inquiries

/-- The inquiry of a long name. -/
def ofLong? (inquiries : Inquiries) (long : String) : Option Stop :=
  if long = "help" then some .help
  else if long = "version" && inquiries = .helpAndVersion then some .version
  else none

/-- The inquiry of a letter. -/
def ofLetter? (inquiries : Inquiries) (letter : Char) : Option Stop :=
  if letter = 'h' then some .help
  else if letter = 'V' && inquiries = .helpAndVersion then some .version
  else none

end Inquiries

namespace Arguments

/-- What an argument leaves to be done: nothing, or to find the value of an
    option in the next argument. -/
inductive Pending where
  | nothing (given : GivenOptions)
  | value (given : GivenOptions) (spec : OptionSpec)

/-- Read an option by its long name, with the text after `=` if there is
    one. -/
def readLong (specs : List OptionSpec) (inquiries : Inquiries) (given : GivenOptions)
    (long : String) (attached : Option String) : Except Stop Pending :=
  match specs.find? (·.long = long), inquiries.ofLong? long with
  | some spec, _ =>
    match spec.kind.valueName?, attached with
    | none, none => (given.note spec "true").map .nothing
    | none, some _ => .error .misuse
    | some _, some value => (given.note spec value).map .nothing
    | some _, none => .ok (.value given spec)
  | none, some stop => .error (if attached.isNone then stop else .misuse)
  | none, none => .error .misuse

/-- Read options by their letters. -/
def readLetters (specs : List OptionSpec) (inquiries : Inquiries) (given : GivenOptions) :
    List Char → Except Stop Pending
  | [] => .ok (.nothing given)
  | c :: rest =>
    match specs.find? (·.letter = some c), inquiries.ofLetter? c with
    | some spec, _ =>
      match spec.kind.valueName?, rest with
      | none, rest => do readLetters specs inquiries (← given.note spec "true") rest
      | some _, [] => .ok (.value given spec)
      | some _, '=' :: value => (given.note spec (String.ofList value)).map .nothing
      | some _, value => (given.note spec (String.ofList value)).map .nothing
    | none, some stop => .error stop
    | none, none => .error .misuse

/-- The text before the first `=` and the text after it. -/
def splitAssignment : List Char → List Char × Option (List Char)
  | [] => ([], none)
  | '=' :: value => ([], some value)
  | c :: cs =>
    let (name, value) := splitAssignment cs
    (c :: name, value)

/-- Read options up to the first argument that is none.  Behind `--` there are
    no options. -/
def readOptions (specs : List OptionSpec) (inquiries : Inquiries) :
    (pending : Pending) → List String → Except Stop (GivenOptions × List String)
  | .nothing given, [] => .ok (given, [])
  | .value _ _, [] => .error .misuse
  | .value given spec, arg :: rest => do
    if arg.startsWith "-" && arg ≠ "-" then throw .misuse
    readOptions specs inquiries (.nothing (← given.note spec arg)) rest
  | .nothing given, arg :: rest =>
    match arg.toList with
    | ['-', '-'] => if rest.isEmpty then .ok (given, []) else .error .misuse
    | '-' :: '-' :: cs => do
      let (name, value) := splitAssignment cs
      let pending ←
        readLong specs inquiries given (String.ofList name) (value.map String.ofList)
      readOptions specs inquiries pending rest
    | '-' :: c :: cs => do
      readOptions specs inquiries (← readLetters specs inquiries given (c :: cs)) rest
    | _ => .ok (given, arg :: rest)

end Arguments

/-! ## Help -/

namespace OptionSpec

/-- An option as help shows it. -/
def usage (spec : OptionSpec) : String :=
  let letter := match spec.letter with
    | some c => s!"-{c}, "
    | none => "    "
  let value := match spec.kind with
    | .flag => ""
    | .counted => "..."
    | .valued name | .repeated name => s!" <{name}>"
  letter ++ "--" ++ spec.long ++ value

end OptionSpec

/-- Lines of names with an explanation, the explanations below each other. -/
def helpTable (rows : List (String × String)) : String :=
  let width := (rows.map fun (name, _) => name.length).foldl max 0
  String.join (rows.map fun (name, text) =>
    "  " ++ name ++ String.ofList (List.replicate (width - name.length + 2) ' ') ++ text ++ "\n")

end QuantumProgram
