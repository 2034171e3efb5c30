/-
  QuantumProgram — files that commands read and write, and their names.

  Commands work on any `Files`; a `Directory` holds files in memory, and
  behaves like a directory on a disk that nobody else uses.  Where no output
  file is named, it stands next to the input file and has its name with a
  suffix (`Path.beside`).
-/

namespace QuantumProgram

/-! ## Names -/

namespace Path

/-- The part of a file name before its last point; a point in front of the
    whole name does not count. -/
def stem (name : String) : String :=
  match (name.splitOn ".").reverse with
  | _ :: before@(_ :: _) =>
    if before = [""] then name else ".".intercalate before.reverse
  | _ => name

/-- Parts of a path without those at the end that lead nowhere. -/
def trimmed (parts : List String) : List String :=
  (parts.reverse.dropWhile fun part => part = "" || part = ".").reverse

/-- The directory of the last part of a path, given by its parts. -/
def directoryParts : List String → List String
  | first :: second :: rest => first :: trimmed (second :: rest).dropLast
  | _ => []

/-- The file next to `input` whose name has a suffix. -/
def beside (input suffix : String) : String :=
  let parts := input.splitOn "/"
  let name := stem (parts.getLast?.getD "") ++ "_" ++ suffix ++ ".json"
  "/".intercalate (directoryParts parts ++ [name])

end Path

/-! ## Reading and writing -/

/-- Why a file cannot be read. -/
inductive ReadFault where
  | missing
  /-- It is there, but reading fails for the given reason. -/
  | failed (reason : String)
deriving DecidableEq, Repr

/-- Reading and writing whole files by name; a write that fails gives the
    reason. -/
structure Files (m : Type → Type) where
  read : String → m (Except ReadFault String)
  write : (path contents : String) → m (Except String Unit)

/-! ## Directories in memory -/

/-- Files by path, a path being the names from the directory down to the
    file. -/
structure Directory where
  files : List (List String × String)

/-- What a path leads to. -/
inductive Place where
  | file (path : List String) (contents : String)
  | directory (path : List String)
  /-- There is nothing of this name in a directory that exists. -/
  | vacant (path : List String)

/-- Why a path leads nowhere. -/
inductive PathFault where
  | noEntry
  | notADirectory
deriving DecidableEq, Repr

def PathFault.message : PathFault → String
  | noEntry => "No such file or directory (os error 2)"
  | notADirectory => "Not a directory (os error 20)"

namespace Directory

/-- The message for a directory in the place of a file. -/
def isDirectoryMessage : String := "Is a directory (os error 21)"

/-- The parts of a path. -/
def parts (path : String) : List String := path.splitOn "/"

/-- The directory with some files in it. -/
def ofFiles (files : List (String × String)) : Directory :=
  ⟨files.map fun (path, contents) => (parts path, contents)⟩

/-- The contents of the file at a path. -/
def file? (d : Directory) (path : List String) : Option String :=
  (d.files.find? (·.1 = path)).map (·.2)

/-- Whether there is a directory at a path. -/
def hasDirectory (d : Directory) (path : List String) : Bool :=
  d.files.any fun (file, _) => path.length < file.length && file.take path.length = path

/-- Follow a path from a directory `here`. -/
def follow (d : Directory) (here : List String) : List String → Except PathFault Place
  | [] => .ok (.directory here)
  | name :: rest =>
    if name = "" || name = "." then d.follow here rest
    else if name = ".." then
      if here.isEmpty then .error .noEntry else d.follow here.dropLast rest
    else
      let path := here ++ [name]
      match d.file? path with
      | some contents => if rest.isEmpty then .ok (.file path contents) else .error .notADirectory
      | none =>
        if d.hasDirectory path then d.follow path rest
        else if rest.isEmpty then .ok (.vacant path)
        else .error .noEntry

/-- What a path leads to.  There is nothing outside the directory. -/
def place (d : Directory) (path : String) : Except PathFault Place :=
  if path.isEmpty || path.startsWith "/" then .error .noEntry else d.follow [] (parts path)

/-- Read a file. -/
def read (d : Directory) (path : String) : Except ReadFault String :=
  match d.place path with
  | .ok (.file _ contents) => .ok contents
  | .ok (.directory _) => .error (.failed isDirectoryMessage)
  | _ => .error .missing

/-- Put a file in place of one with the same path. -/
def put (d : Directory) (path : List String) (contents : String) : Directory :=
  ⟨d.files.filter (·.1 ≠ path) ++ [(path, contents)]⟩

/-- Write a file. -/
def write (d : Directory) (path contents : String) : Except String Directory :=
  match d.place path with
  | .ok (.file path _) | .ok (.vacant path) => .ok (d.put path contents)
  | .ok (.directory _) => .error isDirectoryMessage
  | .error fault => .error fault.message

/-- The files of a directory as the state of a computation. -/
def access : Files (StateM Directory) where
  read path := return (← get).read path
  write path contents := do
    match (← get).write path contents with
    | .ok d => set d; return .ok ()
    | .error reason => return .error reason

end Directory

end QuantumProgram
