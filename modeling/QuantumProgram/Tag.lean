/-
  QuantumProgram — tags.

  Tags are notes on operations and programs.  Names and numbers can be
  persisted; values of other kinds can only be attached in memory.
-/
import QuantumProgram.Digest
import QuantumProgram.Text.Quoted

namespace QuantumProgram

/-- A value that can be attached as a tag in memory but has no persisted form.
    In memory it may be of any type that can be compared, hashed and shown; here
    two kinds stand for all of them, numbered markers and notes.  Values of
    different kinds are never equal.  Nothing but the text that is shown and the
    fed words look at the kind, and comparing and hashing are taken up for any
    kinds as `Runtime`. -/
inductive Attachment where
  | marker (number : Int64)
  | note (text : String)
deriving DecidableEq, Repr

instance : ToString Attachment where
  toString
    | .marker number => "Marker(" ++ toString number ++ ")"
    | .note text => "Note(" ++ quoted text ++ ")"

/-- A note on an operation or a program. -/
inductive Tag where
  | name (text : String)
  | int (value : Int64)
  | attached (value : Attachment)
deriving DecidableEq, Repr

namespace Tag

instance : ToString Tag where
  toString
    | name text => quoted text
    | int value => toString value
    | attached value => toString value

/-- Whether the tag has a persisted form. -/
def isPersistable : Tag → Bool
  | attached _ => false
  | _ => true

/-- The attached marker number, if the tag is one. -/
def marker? : Tag → Option Int64
  | attached (.marker number) => some number
  | _ => none

/-- The attached note, if the tag is one. -/
def note? : Tag → Option String
  | attached (.note text) => some text
  | _ => none

/-- What a tag feeds to a hash function. -/
def feed : Tag → List HashItem
  | name text => [.word 0, .text text]
  | int value => [.word 1, .word value.toUInt64]
  | attached (.marker number) => [.word 2, .word 0, .word number.toUInt64]
  | attached (.note text) => [.word 2, .word 1, .text text]

/-- The text of several tags. -/
def listText (tags : List Tag) : String := commaSeparated (tags.map toString)

end Tag

end QuantumProgram
