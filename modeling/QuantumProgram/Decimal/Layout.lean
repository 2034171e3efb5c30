/-
  QuantumProgram — how a float is written.

  The digits of a float are chosen by `Binary.shortest`; a `Layout` decides
  how they are set: up to where positions are used in place of an exponent,
  whether whole numbers keep a point, whether a positive exponent has a sign,
  and which way ties between digits go.  `Layout.render` writes any float.
-/
import QuantumProgram.Decimal.Shortest

namespace QuantumProgram

/-- The decisions of a float format.  A number whose leading digit stands for
    `10 ^ e` is written by position if `lowest ≤ e ≤ highest` (where given). -/
structure Layout where
  lowest : Option Int
  highest : Option Int
  /-- Whole numbers written by position end in `.0`. -/
  pointZero : Bool
  /-- A positive exponent is written with a plus sign. -/
  plusSign : Bool
  tie : TieRule
  nan : String
  infinity : String

namespace Layout

/-- Whether a leading digit at `10 ^ e` is written by position. -/
def positional (layout : Layout) (e : Int) : Bool :=
  layout.lowest.all (· ≤ e) && layout.highest.all (e ≤ ·)

private def zeros (n : Nat) : String := String.ofList (List.replicate n '0')

/-- The text of a decimal by position: the point stands after, inside or
    before the digits. -/
def byPosition (layout : Layout) (d : Decimal) : String :=
  let digits := toString d.digits
  if d.exponent ≥ 0 then
    digits ++ zeros d.exponent.toNat ++ (if layout.pointZero then ".0" else "")
  else
    let places := (-d.exponent).toNat
    if places < digits.length then
      let whole := digits.length - places
      String.ofList (digits.toList.take whole) ++ "." ++ String.ofList (digits.toList.drop whole)
    else "0." ++ zeros (places - digits.length) ++ digits

/-- The text of a decimal with an exponent: one digit before the point. -/
def byExponent (layout : Layout) (d : Decimal) : String :=
  let digits := toString d.digits
  let e := d.exponent + digits.length - 1
  let fraction := String.ofList (digits.toList.drop 1)
  String.ofList (digits.toList.take 1)
    ++ (if fraction = "" then "" else "." ++ fraction)
    ++ "e" ++ (if layout.plusSign && e > 0 then "+" else "") ++ toString e

/-- The text of a float. -/
def render (layout : Layout) (x : Float) : String :=
  if x.isNaN then layout.nan
  else
    let bits := x.toBits
    let sign := if bits >>> 63 = 1 then "-" else ""
    let value := Binary.ofBits bits
    if x.isInf then sign ++ layout.infinity
    else if value.mantissa = 0 then sign ++ layout.byPosition ⟨0, 0⟩
    else
      let d := value.shortest layout.tie
      let e := d.exponent + digitCount d.digits - 1
      sign ++ (if layout.positional e then layout.byPosition d else layout.byExponent d)

end Layout

end QuantumProgram
