/-
  QuantumProgram — classical conditions.

  A condition tests the value measured under one key: that it is not zero, or
  that it compares with a number in a given way.
-/
import QuantumProgram.Digest

namespace QuantumProgram

/-- A way of comparing two numbers. -/
inductive Comparator where
  | eq
  | ne
  | lt
  | le
  | gt
  | ge
deriving DecidableEq, Repr

namespace Comparator

def symbol : Comparator → String
  | eq => "=="
  | ne => "!="
  | lt => "<"
  | le => "<="
  | gt => ">"
  | ge => ">="

/-- All comparators. -/
def all : List Comparator := [eq, ne, lt, le, gt, ge]

/-- The comparator with a symbol. -/
def ofSymbol? (s : String) : Option Comparator := all.find? fun c => c.symbol = s

/-- The place of a comparator in `all`. -/
def index : Comparator → UInt64
  | eq => 0
  | ne => 1
  | lt => 2
  | le => 3
  | gt => 4
  | ge => 5

end Comparator

/-- A test of the value measured under `key`. -/
inductive Condition where
  /-- The value is not zero. -/
  | key (key : String)
  /-- The value stands in the given relation to `value`. -/
  | compare (key : String) (comparator : Comparator) (value : Int64)
deriving DecidableEq, Repr

namespace Condition

/-- The key whose value is tested. -/
def measured : Condition → String
  | key k => k
  | compare k _ _ => k

instance : ToString Condition where
  toString
    | key k => k
    | compare k comparator value => k ++ " " ++ comparator.symbol ++ " " ++ toString value

/-- What a condition feeds to a hash function. -/
def feed : Condition → List HashItem
  | key k => [.word 0, .text k]
  | compare k comparator value => [.word 1, .text k, .word comparator.index, .word value.toUInt64]

end Condition

end QuantumProgram
