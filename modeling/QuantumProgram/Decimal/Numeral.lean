/-
  QuantumProgram — the float that a written numeral stands for.

  A numeral is read into a significand of at most 64 bits and a power of ten.
  Digits that no longer fit are dropped: each one before the point raises the
  power, each one after it is without effect.  The significand is then rounded
  to a float and multiplied or divided by the power of ten, so a long numeral
  may be read as a neighbour of the nearest float.
-/

namespace QuantumProgram

/-- The parts of a numeral: sign, digits before and after the point, and the
    exponent (zero if none is written). -/
structure Numeral where
  negative : Bool
  whole : List Nat
  fraction : List Nat
  exponent : Int

namespace Numeral

/-- Append digits to a significand as long as it stays below `2 ^ 64`; the
    second part counts the digits taken. -/
def absorb (s : Nat) : List Nat → Nat × Nat
  | [] => (s, 0)
  | d :: ds =>
    if s * 10 + d < UInt64.size then
      let (s', taken) := absorb (s * 10 + d) ds
      (s', taken + 1)
    else (s, 0)

/-- The significand and the power of ten by which it is scaled. -/
def parts (n : Numeral) : Nat × Int :=
  let (s, taken) := absorb 0 n.whole
  let (s', places) := absorb s n.fraction
  (s', n.exponent + ((n.whole.length - taken : Nat) : Int) - places)

/-- Whether all digits before the point fit into 64 bits. -/
def wholeFits (n : Numeral) : Bool := (absorb 0 n.whole).2 = n.whole.length

/-- `10 ^ n` as a float, for `n ≤ 308`. -/
def powerOfTen (n : Nat) : Float := Float.ofScientific 1 false n

/-- Divide by `10 ^ n`, by at most `10 ^ 308` at a time. -/
def divideByPower (f : Float) (n : Nat) : Float :=
  if n ≤ 308 then f / powerOfTen n
  else if f == 0 then f
  else divideByPower (f / powerOfTen 308) (n - 308)
termination_by n

/-- `s * 10 ^ e` as a float, or `none` if it is too large to be one. -/
def scaled? (s : Nat) (e : Int) : Option Float :=
  let f := Float.ofNat s
  if e < 0 then some (divideByPower f (-e).toNat)
  else if e ≤ 308 then
    let r := f * powerOfTen e.toNat
    if r.isInf then none else some r
  else if s = 0 then some f
  else none

/-- The float that the numeral stands for, or `none` if it is out of range. -/
def toFloat? (n : Numeral) : Option Float :=
  let (s, e) := n.parts
  (scaled? s e).map fun f => if n.negative then -f else f

/-- The whole number that the digits before the point stand for. -/
def toNat (n : Numeral) : Nat := n.whole.foldl (fun s d => s * 10 + d) 0

end Numeral

end QuantumProgram
