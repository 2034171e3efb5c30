/-
  QuantumProgram — qubits.

  A qubit is addressed by an index on a line, by a row and a column on a grid,
  or by a name.  All line qubits come before all grid qubits, which come before
  all named ones; within a kind the order is by index, by row and column, or by
  name.  A wire identifier is the text by which records name a qubit.
-/
import QuantumProgram.Text.Integer

namespace QuantumProgram

open Std

/-- An addressable unit that operations act on. -/
inductive Qubit where
  | line (index : Int64)
  | grid (row col : Int64)
  | named (name : String)
deriving DecidableEq, Repr, Inhabited

namespace Qubit

/-! ## Order -/

/-- The place of the kind of a qubit among the three kinds. -/
def rank : Qubit → Nat
  | line _ => 0
  | grid _ _ => 1
  | named _ => 2

/-- The index of a line qubit, or the row of a grid qubit. -/
def major : Qubit → Int64
  | line index => index
  | grid row _ => row
  | named _ => 0

/-- The column of a grid qubit. -/
def minor : Qubit → Int64
  | grid _ col => col
  | _ => 0

/-- The name of a named qubit. -/
def label : Qubit → String
  | named name => name
  | _ => ""

/-- The order of qubits: by kind, then within the kind. -/
def order : Qubit → Qubit → Ordering :=
  compareLex (compareOn rank)
    (compareLex (compareOn major) (compareLex (compareOn minor) (compareOn label)))

instance : Ord Qubit := ⟨order⟩

instance : TransOrd Qubit :=
  inferInstanceAs (TransCmp (compareLex (compareOn rank)
    (compareLex (compareOn major) (compareLex (compareOn minor) (compareOn label)))))

theorem eq_of_order {a b : Qubit} (h : order a b = .eq) : a = b := by
  simp only [order, compareLex, Ordering.then_eq_eq] at h
  have hr : a.rank = b.rank := Std.compare_eq_iff_eq.1 h.1
  have hm : a.major = b.major := Std.compare_eq_iff_eq.1 h.2.1
  have hn : a.minor = b.minor := Std.compare_eq_iff_eq.1 h.2.2.1
  have hl : a.label = b.label := Std.compare_eq_iff_eq.1 h.2.2.2
  cases a <;> cases b <;> simp_all [rank, major, minor, label]

instance : LawfulEqOrd Qubit where
  eq_of_compare := eq_of_order

/-! ## Text -/

instance : ToString Qubit where
  toString
    | line index => "q(" ++ toString index ++ ")"
    | grid row col => "q(" ++ toString row ++ ", " ++ toString col ++ ")"
    | named name => name

/-- The wire identifier of a qubit: the index, row and column joined by `_`,
    or the name. -/
def wireId : Qubit → String
  | line index => toString index
  | grid row col => toString row ++ "_" ++ toString col
  | named name => name

/-- The text before the first `_` and the text after it. -/
def splitId : List Char → Option (List Char × List Char)
  | [] => none
  | '_' :: cs => some ([], cs)
  | c :: cs => (splitId cs).map fun (before, after) => (c :: before, after)

/-- The grid qubit that an identifier names, if both sides of its first `_`
    are 64-bit numbers. -/
def gridOfId? (cs : List Char) : Option Qubit := do
  let (before, after) ← splitId cs
  return grid (← readInt64? before) (← readInt64? after)

/-- The qubit with a wire identifier: a grid qubit if possible, else a line
    qubit if the whole text is a number, else a named qubit. -/
def ofWireId (id : String) : Qubit :=
  match gridOfId? id.toList, readInt64? id.toList with
  | some q, _ => q
  | none, some index => line index
  | none, none => named id

/-- The line qubits `0`, `1`, …, `n - 1`. -/
def lineRange (n : Int64) : List Qubit :=
  (List.range n.toInt.toNat).map fun i => line (Int64.ofNat i)

end Qubit

end QuantumProgram
