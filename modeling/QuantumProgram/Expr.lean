/-
  QuantumProgram — parameter expressions.

  Gate angles are expressions over numbers, π and free symbols.  `value?`
  evaluates an expression without symbols, `freeNames` lists the symbols, and
  `resolve` replaces symbols through bindings: a symbol bound to a number
  becomes a constant, a symbol bound to a name is renamed.
-/
import QuantumProgram.Digest
import QuantumProgram.Decimal.Layout
import QuantumProgram.Order.SortedSet
import QuantumProgram.Order.SortedMap
import QuantumProgram.Text.Quoted

namespace QuantumProgram

open Std

/-- An angle: a number, a symbol, or an arithmetic combination. -/
inductive Expr where
  | constant (value : Float)
  | symbol (name : String)
  | pi
  | neg (e : Expr)
  | add (a b : Expr)
  | sub (a b : Expr)
  | mul (a b : Expr)
  | div (a b : Expr)
deriving Inhabited

namespace Expr

/-- Constants are shown in full, without an exponent and without `.0`. -/
def layout : Layout where
  lowest := none
  highest := none
  pointZero := false
  plusSign := false
  tie := .up
  nan := "NaN"
  infinity := "inf"

protected def toString : Expr → String
  | constant v => layout.render v
  | symbol n => n
  | pi => "π"
  | neg e => "-(" ++ e.toString ++ ")"
  | add a b => "(" ++ a.toString ++ " + " ++ b.toString ++ ")"
  | sub a b => "(" ++ a.toString ++ " - " ++ b.toString ++ ")"
  | mul a b => "(" ++ a.toString ++ " * " ++ b.toString ++ ")"
  | div a b => "(" ++ a.toString ++ " / " ++ b.toString ++ ")"

instance : ToString Expr := ⟨Expr.toString⟩

/-- Expressions are equal if they have the same form and equal leaves;
    nothing is evaluated. -/
protected def beq : Expr → Expr → Bool
  | constant v, constant w => sameValue v w
  | symbol n, symbol m => n = m
  | pi, pi => true
  | neg e, neg f => e.beq f
  | add a b, add c d => a.beq c && b.beq d
  | sub a b, sub c d => a.beq c && b.beq d
  | mul a b, mul c d => a.beq c && b.beq d
  | div a b, div c d => a.beq c && b.beq d
  | _, _ => false

instance : BEq Expr := ⟨Expr.beq⟩

/-- What an expression feeds to a hash function. -/
def feed : Expr → List HashItem
  | constant v => [.word 0, floatWord v]
  | symbol n => [.word 1, .text n]
  | pi => [.word 2]
  | neg e => .word 3 :: e.feed
  | add a b => .word 4 :: (a.feed ++ b.feed)
  | sub a b => .word 5 :: (a.feed ++ b.feed)
  | mul a b => .word 6 :: (a.feed ++ b.feed)
  | div a b => .word 7 :: (a.feed ++ b.feed)

/-- Whether a symbol occurs. -/
def isSymbolic : Expr → Bool
  | constant _ | pi => false
  | symbol _ => true
  | neg e => e.isSymbolic
  | add a b | sub a b | mul a b | div a b => a.isSymbolic || b.isSymbolic

/-- The float nearest to π. -/
def piValue : Float := 3.141592653589793

/-- The value of an expression without symbols.  A quotient by zero has no
    value. -/
def value? : Expr → Option Float
  | constant v => some v
  | symbol _ => none
  | pi => some piValue
  | neg e => e.value?.map (- ·)
  | add a b => do return (← a.value?) + (← b.value?)
  | sub a b => do return (← a.value?) - (← b.value?)
  | mul a b => do return (← a.value?) * (← b.value?)
  | div a b => do
    let divisor ← b.value?
    if divisor == 0 then none
    else return (← a.value?) / divisor

/-- Values are shown with a point, and with an exponent below `10 ^ -4` and
    from `10 ^ 16` on. -/
def valueLayout : Layout where
  lowest := some (-4)
  highest := some 15
  pointZero := true
  plusSign := false
  tie := .up
  nan := "NaN"
  infinity := "inf"

/-- The form of an expression, case by case. -/
def outline : Expr → String
  | constant v => "Constant(" ++ valueLayout.render v ++ ")"
  | symbol n => "Symbol(Symbol(" ++ quoted n ++ "))"
  | pi => "Pi"
  | neg e => "Neg(" ++ e.outline ++ ")"
  | add a b => "Add(" ++ a.outline ++ ", " ++ b.outline ++ ")"
  | sub a b => "Sub(" ++ a.outline ++ ", " ++ b.outline ++ ")"
  | mul a b => "Mul(" ++ a.outline ++ ", " ++ b.outline ++ ")"
  | div a b => "Div(" ++ a.outline ++ ", " ++ b.outline ++ ")"

/-- The name of an expression that is nothing but a symbol. -/
def symbol? : Expr → Option String
  | symbol n => some n
  | _ => none

/-- The names of the symbols that occur. -/
def freeNames : Expr → SortedSet String
  | constant _ | pi => ∅
  | symbol n => .singleton n
  | neg e => e.freeNames
  | add a b | sub a b | mul a b | div a b => a.freeNames ∪ b.freeNames

/-- The negated expression: the sign of a constant is changed, and a negation
    is taken away rather than doubled. -/
def negated : Expr → Expr
  | constant v => constant (-v)
  | neg e => e
  | e => neg e

end Expr

/-! ## Bindings -/

/-- What is bound: a plain name or a symbol. -/
inductive BindingKey where
  | name (text : String)
  | symbol (text : String)
deriving DecidableEq, Repr

namespace BindingKey

/-- The parameter that is bound. -/
def text : BindingKey → String
  | name t | symbol t => t

/-- Names come before symbols. -/
def rank : BindingKey → Nat
  | name _ => 0
  | symbol _ => 1

/-- The order of keys: names before symbols, each by text. -/
def order : BindingKey → BindingKey → Ordering := compareLex (compareOn rank) (compareOn text)

instance : Ord BindingKey := ⟨order⟩

instance : TransOrd BindingKey :=
  inferInstanceAs (TransCmp (compareLex (compareOn rank) (compareOn text)))

theorem eq_of_order {a b : BindingKey} (h : order a b = .eq) : a = b := by
  simp only [order, compareLex, Ordering.then_eq_eq] at h
  have hr : a.rank = b.rank := Std.compare_eq_iff_eq.1 h.1
  have ht : a.text = b.text := Std.compare_eq_iff_eq.1 h.2
  cases a <;> cases b <;> simp_all [rank, text]

instance : LawfulEqOrd BindingKey where
  eq_of_compare := eq_of_order

/-- What a key feeds to a hash function. -/
def feed : BindingKey → List HashItem
  | name t => [.word 0, .text t]
  | symbol t => [.word 1, .text t]

end BindingKey

/-- What a parameter is bound to: another name, another symbol or a number. -/
inductive BindingValue where
  | name (text : String)
  | symbol (text : String)
  | int (value : Int64)
  | float (value : Float)

namespace BindingValue

/-- The parameter that is referred to, if the value is not a number. -/
def text? : BindingValue → Option String
  | name t | symbol t => some t
  | int _ | float _ => none

protected def beq : BindingValue → BindingValue → Bool
  | name t, name u => t = u
  | symbol t, symbol u => t = u
  | int n, int m => n = m
  | float v, float w => sameValue v w
  | _, _ => false

instance : BEq BindingValue := ⟨BindingValue.beq⟩

/-- What a value feeds to a hash function. -/
def feed : BindingValue → List HashItem
  | name t => [.word 0, .text t]
  | symbol t => [.word 1, .text t]
  | int n => [.word 2, .word n.toUInt64]
  | float v => [.word 3, floatWord v]

/-- The expression that stands for a value. -/
def toExpr : BindingValue → Expr
  | name t | symbol t => .symbol t
  | int n => .constant (Float.ofInt n.toInt)
  | float v => .constant v

end BindingValue

/-- Parameter bindings. -/
abbrev Bindings := SortedMap BindingKey BindingValue

/-- The value of a parameter.  A binding of the symbol hides one of the plain
    name. -/
def Bindings.lookup? (m : Bindings) (name : String) : Option BindingValue :=
  m.get? (.symbol name) <|> m.get? (.name name)

namespace Expr

/-- Replace all bound symbols at once; unbound symbols stay. -/
def resolve (m : Bindings) : Expr → Expr
  | constant v => constant v
  | symbol n =>
    match m.lookup? n with
    | some v => v.toExpr
    | none => symbol n
  | pi => pi
  | neg e => neg (e.resolve m)
  | add a b => add (a.resolve m) (b.resolve m)
  | sub a b => sub (a.resolve m) (b.resolve m)
  | mul a b => mul (a.resolve m) (b.resolve m)
  | div a b => div (a.resolve m) (b.resolve m)

end Expr

end QuantumProgram
