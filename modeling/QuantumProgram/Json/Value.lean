/-
  QuantumProgram — JSON values and their text.

  The members of an object keep their order.  Numbers are whole numbers or
  floats; a float is written with its shortest digits, and one that is not
  finite has no number and becomes `null`.
-/
import QuantumProgram.Decimal.Layout
import QuantumProgram.Text.Quoted

namespace QuantumProgram

/-- A JSON value. -/
inductive Json where
  | null
  | bool (value : Bool)
  | int (value : Int)
  | real (value : Float)
  | string (value : String)
  | array (items : List Json)
  | object (members : List (String × Json))
deriving Inhabited

namespace Json

/-! ## Building values -/

/-- A float as a number, or `null` if it is not finite. -/
def ofFloat (x : Float) : Json := if x.isFinite then real x else null

def ofInt64 (n : Int64) : Json := int n.toInt

def ofNat (n : Nat) : Json := int n

/-- The two values as an array. -/
def pair (a b : Json) : Json := array [a, b]

/-- The array of the values of some items. -/
def ofList {α : Type} (f : α → Json) (l : List α) : Json := array (l.map f)

/-- The value of an item, or `null` if there is none. -/
def ofOption {α : Type} (f : α → Json) : Option α → Json
  | some a => f a
  | none => null

/-- A member that is left out if there is no value. -/
def optional {α : Type} (name : String) (f : α → Json) : Option α → List (String × Json)
  | some a => [(name, f a)]
  | none => []

/-- The case `name` of a type with its contents. -/
def variant (name : String) (contents : Json) : Json := object [(name, contents)]

/-! ## Text -/

/-- Numbers below `10 ^ -5` and from `10 ^ 16` on have an exponent, with a sign
    in either direction; whole numbers keep a point. -/
def layout : Layout where
  lowest := some (-5)
  highest := some 15
  pointZero := true
  plusSign := true
  tie := .toEven
  nan := "null"
  infinity := "null"

/-- A character inside a JSON text. -/
def escapedChar (c : Char) : String :=
  match c with
  | '"' => "\\\""
  | '\\' => "\\\\"
  | '\x08' => "\\b"
  | '\x0c' => "\\f"
  | '\n' => "\\n"
  | '\r' => "\\r"
  | '\t' => "\\t"
  | c =>
    if c.toNat < 0x20 then
      let digits := hexText c.toNat
      "\\u" ++ String.ofList (List.replicate (4 - digits.length) '0') ++ digits
    else c.toString

/-- A text in quotes. -/
def textLiteral (s : String) : String :=
  "\"" ++ String.join (s.toList.map escapedChar) ++ "\""

mutual

/-- The text of a value, without blanks. -/
def render : Json → String
  | null => "null"
  | bool b => if b then "true" else "false"
  | int n => toString n
  | real x => layout.render x
  | string s => textLiteral s
  | array items => "[" ++ renderItems items ++ "]"
  | object members => "\x7b" ++ renderMembers members ++ "\x7d"
termination_by structural v => v

/-- The texts of values, separated by commas. -/
def renderItems : List Json → String
  | [] => ""
  | [v] => v.render
  | v :: rest => v.render ++ "," ++ renderItems rest
termination_by structural vs => vs

/-- The texts of members, separated by commas. -/
def renderMembers : List (String × Json) → String
  | [] => ""
  | [(name, v)] => textLiteral name ++ ":" ++ v.render
  | (name, v) :: rest => textLiteral name ++ ":" ++ v.render ++ "," ++ renderMembers rest
termination_by structural ms => ms

end

end Json

end QuantumProgram
