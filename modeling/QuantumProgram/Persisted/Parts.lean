/-
  QuantumProgram — the persisted forms of the parts of operations.

  Each type has a function that writes a value of it as JSON and a decoder
  that reads it back.  Only tags can fail to be written.
-/
import QuantumProgram.Condition
import QuantumProgram.Gate
import QuantumProgram.Json.Decoder
import QuantumProgram.Tag

namespace QuantumProgram

open Json (variant)
open Decoder (record variants holding withFields unit)
open Decoder.Fields (cons nil)

/-! ## Qubits -/

namespace Qubit

def toJson : Qubit → Json
  | line index => variant "Line" (.ofInt64 index)
  | grid row col => variant "Grid" (.object [("row", .ofInt64 row), ("col", .ofInt64 col)])
  | named name => variant "Named" (.string name)

def decoder : Decoder Qubit :=
  variants
    [ holding "Line" .int64 line,
      withFields "Grid" (cons "row" .int64 none (cons "col" .int64 none nil))
        fun (row, col, _) => grid row col,
      holding "Named" .text named ]

end Qubit

/-! ## Tags -/

/-- Writing fails at a tag that has no persisted form. -/
abbrev Encoded := Except Attachment

/-- The text shown when a tag cannot be written. -/
def Attachment.message (a : Attachment) : String :=
  s!"tag {a} cannot be persisted; only string and integer tags are"

namespace Tag

def toJson : Tag → Encoded Json
  | name text => .ok (variant "Name" (.string text))
  | int value => .ok (variant "Int" (.ofInt64 value))
  | attached value => .error value

/-- Several tags as an array. -/
def listToJson (tags : List Tag) : Encoded Json := do
  return .array (← tags.mapM toJson)

def decoder : Decoder Tag := variants [holding "Name" .text name, holding "Int" .int64 int]

end Tag

/-! ## Conditions -/

namespace Comparator

def name : Comparator → String
  | eq => "Eq"
  | ne => "Ne"
  | lt => "Lt"
  | le => "Le"
  | gt => "Gt"
  | ge => "Ge"

def decoder : Decoder Comparator := variants (all.map fun c => unit c.name c)

end Comparator

namespace Condition

def toJson : Condition → Json
  | key k => variant "Key" (.object [("key", .string k)])
  | compare k comparator value =>
    variant "Compare" (.object
      [("key", .string k), ("comparator", .string comparator.name), ("value", .ofInt64 value)])

def decoder : Decoder Condition :=
  variants
    [ withFields "Key" (cons "key" .text none nil) fun (k, _) => key k,
      withFields "Compare"
        (cons "key" .text none
          (cons "comparator" Comparator.decoder none (cons "value" .int64 none nil)))
        fun (k, comparator, value, _) => compare k comparator value ]

end Condition

/-! ## Expressions and bindings -/

namespace Expr

def toJson : Expr → Json
  | constant v => variant "Constant" (.ofFloat v)
  | symbol n => variant "Symbol" (.string n)
  | pi => .string "Pi"
  | neg e => variant "Neg" e.toJson
  | add a b => variant "Add" (.pair a.toJson b.toJson)
  | sub a b => variant "Sub" (.pair a.toJson b.toJson)
  | mul a b => variant "Mul" (.pair a.toJson b.toJson)
  | div a b => variant "Div" (.pair a.toJson b.toJson)

def decoderOf (expr : Decoder Expr) : Decoder Expr :=
  variants
    [ holding "Constant" .float constant,
      holding "Symbol" .text symbol,
      unit "Pi" pi,
      holding "Neg" expr neg,
      holding "Add" (.pair expr expr) fun (a, b) => add a b,
      holding "Sub" (.pair expr expr) fun (a, b) => sub a b,
      holding "Mul" (.pair expr expr) fun (a, b) => mul a b,
      holding "Div" (.pair expr expr) fun (a, b) => div a b ]

def decoder : Decoder Expr := .recursive decoderOf

end Expr

namespace BindingKey

def toJson : BindingKey → Json
  | name t => variant "Name" (.string t)
  | symbol t => variant "Symbol" (.string t)

def decoder : Decoder BindingKey :=
  variants [holding "Name" .text name, holding "Symbol" .text symbol]

end BindingKey

namespace BindingValue

def toJson : BindingValue → Json
  | name t => variant "Name" (.string t)
  | symbol t => variant "Symbol" (.string t)
  | int n => variant "Int" (.ofInt64 n)
  | float v => variant "Float" (.ofFloat v)

def decoder : Decoder BindingValue :=
  variants
    [ holding "Name" .text name,
      holding "Symbol" .text symbol,
      holding "Int" .int64 int,
      holding "Float" .float float ]

end BindingValue

/-! ## Gates -/

namespace StandardGate

def toJson : StandardGate → Json
  | id => .string "I"
  | x => .string "X"
  | y => .string "Y"
  | z => .string "Z"
  | h => .string "H"
  | s => .string "S"
  | sdg => .string "Sdg"
  | t => .string "T"
  | tdg => .string "Tdg"
  | rx e => variant "Rx" e.toJson
  | ry e => variant "Ry" e.toJson
  | rz e => variant "Rz" e.toJson
  | phase e => variant "P" e.toJson
  | cx => .string "CX"
  | cz => .string "CZ"
  | swap => .string "Swap"
  | ccx => .string "CCX"
  | globalPhase c => variant "GlobalPhase" (.pair (.ofFloat c.re) (.ofFloat c.im))

def decoder : Decoder StandardGate :=
  variants
    [ unit "I" id, unit "X" x, unit "Y" y, unit "Z" z, unit "H" h, unit "S" s, unit "Sdg" sdg,
      unit "T" t, unit "Tdg" tdg,
      holding "Rx" Expr.decoder rx,
      holding "Ry" Expr.decoder ry,
      holding "Rz" Expr.decoder rz,
      holding "P" Expr.decoder phase,
      unit "CX" cx, unit "CZ" cz, unit "Swap" swap, unit "CCX" ccx,
      holding "GlobalPhase" (.pair .float .float) fun (re, im) => globalPhase ⟨re, im⟩ ]

end StandardGate

namespace CustomGate

def toJson (g : CustomGate) : Json :=
  .object
    ([("name", .string g.name), ("num_qubits", .int g.numQubits.toNat),
        ("params", .ofList Expr.toJson g.params)]
      ++ Json.optional "inverse_name" .string g.inverseName)

def decoder : Decoder CustomGate :=
  record
    (cons "name" .text none
      (cons "num_qubits" .uint32 none
        (cons "params" (.list Expr.decoder) none
          (cons "inverse_name" (.option .text) (some none) nil))))
    fun (name, numQubits, params, inverseName, _) => ⟨name, numQubits, params, inverseName⟩

end CustomGate

namespace Gate

def toJson : Gate → Json
  | standard g => variant "Standard" g.toJson
  | custom g => variant "Custom" g.toJson

def decoder : Decoder Gate :=
  variants
    [ holding "Standard" StandardGate.decoder standard,
      holding "Custom" CustomGate.decoder custom ]

end Gate

end QuantumProgram
