/-
  QuantumProgram — reading values of a type from documents.

  A decoder goes through a document in the order of the text and stops at the
  first thing that is wrong: a fault of the text, a value of the wrong form,
  or a value that is not valid.  It is told how many arrays and objects may
  still be opened inside each other, which bounds the depth of what it reads
  and gives recursive types their recursion (`Decoder.recursive`).

  Types with fields are read from objects, unknown members being skipped, or
  from arrays of the fields in order; types with cases are read from the name
  of a case or from an object with the one member of that name.
-/
import QuantumProgram.BuildError
import QuantumProgram.Json.Parser

namespace QuantumProgram

/-- Why a document does not give a value of the type that is read. -/
inductive DecodeError where
  /-- The text is not JSON or ends too early. -/
  | fault (fault : Fault)
  /-- The form or the range of a value is not the one of its type. -/
  | mismatch
  /-- An operation, moment or call is not valid. -/
  | invalid (error : BuildError)
deriving DecidableEq, Repr

/-- The text shown for an error. -/
def DecodeError.message : DecodeError → String
  | fault .malformed => "the text is not JSON"
  | fault .truncated => "the text ends too early"
  | mismatch => "a value does not have the form that is expected here"
  | invalid e => e.message

abbrev Decoded := Except DecodeError

/-- What a document stands for. -/
inductive Source where
  /-- A text, in which the fields of a case may be listed in an array. -/
  | text
  /-- A value, in which the fields of a case are named. -/
  | value
deriving DecidableEq, Repr

/-- A reader of values, given how many arrays and objects may be opened. -/
abbrev Decoder (α : Type) := (source : Source) → (room : Nat) → Document → Decoded α

namespace Decoder

variable {α β γ : Type}

/-! ## Single values -/

/-- The error of a reader who finds a value of another kind. -/
def wrongKind : Document → DecodeError
  | .unreadable b => .fault b.fault
  | _ => .mismatch

/-- The outcome of a check on a value of the right kind. -/
def inRange : Option α → Decoded α
  | some a => .ok a
  | none => .error .mismatch

def text : Decoder String := fun _ _ d =>
  match d with
  | .string s => .ok s
  | d => .error (wrongKind d)

def bool : Decoder Bool := fun _ _ d =>
  match d with
  | .bool b => .ok b
  | d => .error (wrongKind d)

/-- A whole number that passes a check of its range. -/
def whole (check : Int → Option α) : Decoder α := fun _ _ d =>
  match d with
  | .int n => inRange (check n)
  | d => .error (wrongKind d)

def int64 : Decoder Int64 := whole int64?

/-- A number of 32 bits without a sign. -/
def uint32 : Decoder UInt32 :=
  whole fun n => if 0 ≤ n ∧ n < UInt32.size then some (UInt32.ofNat n.toNat) else none

/-- A position in a list: a number of 64 bits without a sign. -/
def position : Decoder Nat :=
  whole fun n => if 0 ≤ n ∧ n < UInt64.size then some n.toNat else none

/-- A float; whole numbers are rounded to floats. -/
def float : Decoder Float := fun _ _ d =>
  match d with
  | .real x => .ok x
  | .int n => .ok (Float.ofInt n)
  | d => .error (wrongKind d)

/-- `null`, or a value. -/
def option (decode : Decoder α) : Decoder (Option α) := fun source room d =>
  match d with
  | .null => .ok none
  | d => (decode source room d).map some

/-- The value with a function applied. -/
def map (f : α → β) (decode : Decoder α) : Decoder β :=
  fun source room d => (decode source room d).map f

/-- The value, if it can be turned into a valid one. -/
def validated (check : α → Except BuildError β) (decode : Decoder α) : Decoder β :=
  fun source room d => do
  match check (← decode source room d) with
  | .ok b => return b
  | .error e => throw (.invalid e)

/-! ## Arrays -/

/-- The end of an array all of whose items are wanted. -/
def endOfItems : Ending → Decoded Unit
  | .closed => .ok ()
  | .broken f _ _ => .error (.fault f)
  | .strayKey _ => .error (.fault .malformed)

/-- The end of an array from which a fixed number of items was taken. -/
def noMoreItems : List Document → Ending → Decoded Unit
  | _ :: _, _ => .error (.fault .malformed)
  | [], .broken f afterComma _ => .error (.fault (if afterComma then .malformed else f))
  | [], ending => endOfItems ending

/-- An item is wanted and there is none. -/
def missingItem (ending : Ending) : Decoded α := do
  endOfItems ending
  throw .mismatch

/-- Read each of some items. -/
def each (decode : Document → Decoded α) : List Document → Decoded (List α)
  | [] => .ok []
  | d :: rest => do
    let a ← decode d
    let as ← each decode rest
    return a :: as

/-- Read an array, given what to do with its items when it may be opened. -/
def opened (read : (source : Source) → (room : Nat) → List Document → Ending → Decoded α) :
    Decoder α
  | _, 0, .array _ _ => .error (.fault .malformed)
  | source, room + 1, .array items ending => read source room items ending
  | _, _, d => .error (wrongKind d)

def list (decode : Decoder α) : Decoder (List α) :=
  opened fun source room items ending => do
    let as ← each (decode source room) items
    endOfItems ending
    return as

/-- An array of two values. -/
def pair (first : Decoder α) (second : Decoder β) : Decoder (α × β) :=
  opened fun source room items ending => do
    match items with
    | [] => missingItem ending
    | d :: rest =>
      let a ← first source room d
      match rest with
      | [] => missingItem ending
      | d :: rest =>
        let b ← second source room d
        noMoreItems rest ending
        return (a, b)

/-! ## Fields -/

/-- The fields of a type: names, decoders, and the values that stand in for
    fields that are not given.  `τ` holds the values of all fields, `σ` the
    values found so far. -/
inductive Fields : (τ σ : Type) → Type 1 where
  | nil : Fields Unit Unit
  | cons {α τ σ : Type} (name : String) (decode : Decoder α) (absent : Option α)
      (rest : Fields τ σ) : Fields (α × τ) (Option α × σ)

namespace Fields

/-- No field has been found. -/
def nothing : {τ σ : Type} → Fields τ σ → σ
  | _, _, nil => ()
  | _, _, cons _ _ _ rest => (none, rest.nothing)

/-- Note the member `name` of an object.  A field may be given once; a member
    that is no field is skipped. -/
def note (source : Source) (room : Nat) (name : String) (d : Document) :
    {τ σ : Type} → Fields τ σ → σ → Decoded σ
  | _, _, nil, _ =>
    match d.skipFault? with
    | some f => .error (.fault f)
    | none => .ok ()
  | _, _, cons field decode _ rest, (found, others) =>
    if name = field then
      match found with
      | some _ => .error .mismatch
      | none => (decode source room d).map fun a => (some a, others)
    else (note source room name d rest others).map fun others => (found, others)

/-- The fields in order, with what stands in for those that are not given. -/
def complete : {τ σ : Type} → Fields τ σ → σ → Decoded τ
  | _, _, nil, _ => .ok ()
  | _, _, cons _ _ absent rest, (found, others) => do
    let a ← inRange (found <|> absent)
    let as ← rest.complete others
    return (a, as)

/-- Note the members of an object one after the other. -/
def members {τ σ : Type} (fs : Fields τ σ) (source : Source) (room : Nat) :
    List (String × Document) → σ → Decoded σ
  | [], found => .ok found
  | (name, d) :: rest, found => do
    let found ← fs.note source room name d found
    fs.members source room rest found

/-- Read the fields from the items of an array. -/
def items (source : Source) (room : Nat) :
    {τ σ : Type} → Fields τ σ → List Document → Ending → Decoded τ
  | _, _, nil, rest, ending => noMoreItems rest ending
  | _, _, cons _ decode _ rest, d :: ds, ending => do
    let a ← decode source room d
    let as ← rest.items source room ds ending
    return (a, as)
  | _, _, cons _ _ absent rest, [], ending => do
    endOfItems ending
    let a ← inRange absent
    let as ← rest.items source room [] ending
    return (a, as)

end Fields

/-- A type with fields, from an object or from an array. -/
def record {τ σ : Type} (fs : Fields τ σ) (build : τ → α) : Decoder α
  | _, 0, .array _ _ => .error (.fault .malformed)
  | _, 0, .object _ _ => .error (.fault .malformed)
  | source, room + 1, .array items ending => (fs.items source room items ending).map build
  | source, room + 1, .object members ending => do
    let found ← fs.members source room members fs.nothing
    endOfItems ending
    return build (← fs.complete found)
  | _, _, d => .error (wrongKind d)

/-! ## Cases -/

/-- What a case of a type holds. -/
inductive Contents (α : Type) where
  | nothing (value : α)
  | something (decode : Decoder α)

/-- A case with its name. -/
abbrev Case (α : Type) := String × Contents α

/-- A case that holds nothing. -/
def unit (name : String) (value : α) : Case α := (name, .nothing value)

/-- A case that holds one value. -/
def holding (name : String) (decode : Decoder β) (build : β → α) : Case α :=
  (name, .something (decode.map build))

/-- The fields of a case, from an object or, in a text, from an array. -/
def caseFields {τ σ : Type} (fs : Fields τ σ) (build : τ → α) : Decoder α
  | .value, _, .array _ _ => .error .mismatch
  | source, room, d => record fs build source room d

/-- A case that has fields. -/
def withFields {τ σ : Type} (name : String) (fs : Fields τ σ) (build : τ → α) : Case α :=
  (name, .something (caseFields fs build))

/-- The case of a name. -/
def findCase? (name : String) (cases : List (Case α)) : Option (Contents α) :=
  (cases.find? fun c => c.1 = name).map (·.2)

/-- Read what a case holds. -/
def Contents.read (source : Source) (room : Nat) (d : Document) : Contents α → Decoded α
  | nothing a =>
    match d with
    | .null => .ok a
    | d => .error (wrongKind d)
  | something decode => decode source room d

/-- The end of an object of which one member was taken. -/
def noMoreMembers : List (String × Document) → Ending → Decoded Unit
  | _ :: _, _ => .error (.fault .malformed)
  | [], ending => noMoreItems [] ending

/-- The object has no member whose key is the name of a case. -/
def missingCase : Ending → DecodeError
  | .closed => .fault .malformed
  | .broken f _ _ => .fault f
  | .strayKey (some f) => .fault f
  | .strayKey none => .mismatch

/-- A type with cases, from a name or from an object with one member. -/
def variants (cases : List (Case α)) : Decoder α
  | _, _, .string name =>
    match findCase? name cases with
    | some (.nothing a) => .ok a
    | _ => .error .mismatch
  | _, 0, .object _ _ => .error (.fault .malformed)
  | _, _ + 1, .object [] ending => .error (missingCase ending)
  | source, room + 1, .object ((name, d) :: rest) ending =>
    match findCase? name cases with
    | none => .error .mismatch
    | some contents => do
      let a ← contents.read source room d
      noMoreMembers rest ending
      return a
  | _, _, .unreadable b => .error (.fault b.asVariant)
  | _, _, _ => .error (.fault .malformed)

/-! ## Recursive types -/

/-- At most `depth` unfoldings of a decoder that refers to itself. -/
def unfolded (step : Decoder α → Decoder α) : (depth : Nat) → Decoder α
  | 0 => step fun _ _ _ => .error (.fault .malformed)
  | depth + 1 => step (unfolded step depth)

/-- A decoder that refers to itself inside arrays and objects.  Each unfolding
    opens one of these, so `room` unfoldings are enough. -/
def recursive (step : Decoder α → Decoder α) : Decoder α :=
  fun source room => unfolded step room source room

/-- At most this many arrays and objects are opened inside each other in a
    text. -/
def depthLimit : Nat := 127

end Decoder

/-! ## Whole texts and values -/

/-- How values are written as texts, and how texts are read. -/
structure JsonFormat where
  /-- The text of a value. -/
  write : Json → String
  /-- A text as far as it is JSON, and whether anything but blanks follows. -/
  read : String → Document × Bool
  /-- At most this many arrays and objects are opened inside each other. -/
  room : Nat

/-- The format of all files: texts without blanks. -/
def JsonFormat.compact : JsonFormat := ⟨Json.render, Document.ofText, Decoder.depthLimit⟩

/-- Read a whole text of a format. -/
def Decoder.ofTextIn {α : Type} (format : JsonFormat) (decode : Decoder α) (s : String) :
    Decoded α := do
  let (d, more) := format.read s
  let a ← decode .text format.room d
  if more then throw (.fault .malformed)
  return a

/-- Read a whole text. -/
def Decoder.ofText {α : Type} (decode : Decoder α) (s : String) : Decoded α :=
  decode.ofTextIn .compact s

namespace Json

mutual

/-- How many arrays and objects are inside each other. -/
def depth : Json → Nat
  | null => 0
  | bool _ => 0
  | int _ => 0
  | real _ => 0
  | string _ => 0
  | array items => itemsDepth items + 1
  | object members => membersDepth members + 1
termination_by structural v => v

def itemsDepth : List Json → Nat
  | [] => 0
  | v :: rest => max v.depth (itemsDepth rest)
termination_by structural vs => vs

def membersDepth : List (String × Json) → Nat
  | [] => 0
  | (_, v) :: rest => max v.depth (membersDepth rest)
termination_by structural ms => ms

end

end Json

/-- Read a value, of any depth.  There is no text, so all that can be wrong
    with the form is a mismatch. -/
def Decoder.ofJson {α : Type} (decode : Decoder α) (v : Json) : Decoded α :=
  match decode .value v.depth (Document.ofJson v) with
  | .error (.fault _) => .error .mismatch
  | outcome => outcome

end QuantumProgram
