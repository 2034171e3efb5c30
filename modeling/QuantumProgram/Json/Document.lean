/-
  QuantumProgram — a text as far as it is JSON.

  A text is read from left to right, and what is wrong with it may show before
  or after the place where it stops being JSON.  A document holds the values
  that were found and, where the text breaks off, a mark that says why.  What
  is read from a document then meets the faults of the text in their order.

  A value that is read over without being used is held to the grammar only;
  `skipFault?` tells what stops a reader that skips.
-/
import QuantumProgram.Json.Value

namespace QuantumProgram

/-- Why a text cannot be read on. -/
inductive Fault where
  /-- The text is not JSON at this place. -/
  | malformed
  /-- The text ends too early. -/
  | truncated
deriving DecidableEq, Repr

/-- A place where no value can be read. -/
structure Breakage where
  /-- What a reader meets who wants a value here. -/
  fault : Fault
  /-- What a reader meets who wants the name of a case here. -/
  asVariant : Fault
  /-- What a reader meets who skips the value. -/
  skipped : Option Fault

/-- How an array or object ends. -/
inductive Ending where
  | closed
  /-- There is neither a further item nor the closing bracket.  `skipped` is
      what a reader meets who skips the rest. -/
  | broken (fault : Fault) (afterComma : Bool) (skipped : Option Fault)
  /-- The first key of an object is no text.  Read as a text it has the given
      fault, or none if it is a whole value of another kind. -/
  | strayKey (asText : Option Fault)

/-- What a reader meets who skips the rest of an array or object. -/
def Ending.skipFault? : Ending → Option Fault
  | closed => none
  | broken _ _ skipped => skipped
  | strayKey _ => some .malformed

/-- A text as far as it is JSON. -/
inductive Document where
  | null
  | bool (value : Bool)
  | int (value : Int)
  | real (value : Float)
  | string (value : String)
  | array (items : List Document) (ending : Ending)
  | object (members : List (String × Document)) (ending : Ending)
  | unreadable (breakage : Breakage)

namespace Document

mutual

/-- What a reader meets who skips the document. -/
def skipFault? : Document → Option Fault
  | null => none
  | bool _ => none
  | int _ => none
  | real _ => none
  | string _ => none
  | array items ending => itemsSkipFault? items <|> ending.skipFault?
  | object members ending => membersSkipFault? members <|> ending.skipFault?
  | unreadable b => b.skipped
termination_by structural d => d

def itemsSkipFault? : List Document → Option Fault
  | [] => none
  | d :: rest => d.skipFault? <|> itemsSkipFault? rest
termination_by structural ds => ds

def membersSkipFault? : List (String × Document) → Option Fault
  | [] => none
  | (_, d) :: rest => d.skipFault? <|> membersSkipFault? rest
termination_by structural ms => ms

end

mutual

/-- The document of a value. -/
def ofJson : Json → Document
  | .null => null
  | .bool b => bool b
  | .int n => int n
  | .real x => real x
  | .string s => string s
  | .array items => array (ofItems items) .closed
  | .object members => object (ofMembers members) .closed
termination_by structural v => v

def ofItems : List Json → List Document
  | [] => []
  | v :: rest => ofJson v :: ofItems rest
termination_by structural vs => vs

def ofMembers : List (String × Json) → List (String × Document)
  | [] => []
  | (name, v) :: rest => (name, ofJson v) :: ofMembers rest
termination_by structural ms => ms

end

mutual

/-- The value of a document without a break; of several members of one name
    the last is kept. -/
def toJson? : Document → Option Json
  | null => some .null
  | bool b => some (.bool b)
  | int n => some (.int n)
  | real x => some (.real x)
  | string s => some (.string s)
  | array items .closed => (itemsToJson? items).map .array
  | object members .closed => (membersToJson? members).map .object
  | _ => none
termination_by structural d => d

def itemsToJson? : List Document → Option (List Json)
  | [] => some []
  | d :: rest => do
    let v ← d.toJson?
    let vs ← itemsToJson? rest
    return v :: vs
termination_by structural ds => ds

def membersToJson? : List (String × Document) → Option (List (String × Json))
  | [] => some []
  | (name, d) :: rest => do
    let v ← d.toJson?
    let vs ← membersToJson? rest
    return if vs.any (·.1 = name) then vs else (name, v) :: vs
termination_by structural ms => ms

end

end Document

end QuantumProgram
