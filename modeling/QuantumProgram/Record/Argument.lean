/-
  QuantumProgram — arguments of records.

  An argument is encoded as text, symbol, number, list or expression.  Reading
  it makes expressions as plain as possible: one that is a bare symbol is that
  symbol, and one that can be evaluated is its value.  Arguments serve as
  binding keys, as binding values and as gate angles; each use admits some
  kinds of argument only.
-/
import QuantumProgram.Expr

namespace QuantumProgram

/-- An argument as it is encoded. -/
inductive ArgumentRecord where
  | text (value : String)
  | symbol (name : String)
  | float (value : Float)
  | int (value : Int64)
  | bool (value : Bool)
  | floats (values : List Float)
  | bools (values : List Bool)
  | expression (value : Expr)

/-- An argument. -/
inductive Argument where
  | name (text : String)
  | symbol (name : String)
  | float (value : Float)
  | int (value : Int64)
  | bool (value : Bool)
  | floats (values : List Float)
  | bools (values : List Bool)
  | expression (value : Expr)

/-- The argument of an expression: its symbol, its value, or itself. -/
def Argument.ofExpr (e : Expr) : Argument :=
  match e.symbol?, e.value? with
  | some n, _ => symbol n
  | none, some v => float v
  | none, none => expression e

/-- The argument that a record encodes. -/
def ArgumentRecord.argument : ArgumentRecord → Argument
  | text s => .name s
  | symbol n => .symbol n
  | float v => .float v
  | int n => .int n
  | bool b => .bool b
  | floats vs => .floats vs
  | bools bs => .bools bs
  | expression e => .ofExpr e

namespace Argument

/-- The kind of an argument in words. -/
def kind : Argument → String
  | name _ => "name"
  | symbol _ => "symbol"
  | float _ => "float"
  | int _ => "int"
  | bool _ => "bool"
  | floats _ => "float list"
  | bools _ => "bool list"
  | expression _ => "expression"

/-- The argument with its case. -/
def outline : Argument → String
  | name s => "Name(" ++ quoted s ++ ")"
  | symbol n => "Symbol(Symbol(" ++ quoted n ++ "))"
  | float v => "Float(" ++ Expr.valueLayout.render v ++ ")"
  | int n => "Int(" ++ toString n ++ ")"
  | bool b => "Bool(" ++ toString b ++ ")"
  | floats vs => "FloatList([" ++ commaSeparated (vs.map Expr.valueLayout.render) ++ "])"
  | bools bs => "BoolList([" ++ commaSeparated (bs.map toString) ++ "])"
  | expression e => "Expression(" ++ e.outline ++ ")"

/-- The argument as what is bound. -/
def key? : Argument → Option BindingKey
  | name s => some (.name s)
  | symbol n => some (.symbol n)
  | _ => none

/-- The argument as what a parameter is bound to; a truth value counts as `0`
    or `1`. -/
def value? : Argument → Option BindingValue
  | name s => some (.name s)
  | symbol n => some (.symbol n)
  | float v => some (.float v)
  | int n => some (.int n)
  | bool b => some (.int (if b then 1 else 0))
  | _ => none

/-- The argument as an angle. -/
def angle? : Argument → Option Expr
  | symbol n => some (.symbol n)
  | float v => some (.constant v)
  | int n => some (.constant (Float.ofInt n.toInt))
  | expression e => some e
  | _ => none

end Argument

end QuantumProgram
