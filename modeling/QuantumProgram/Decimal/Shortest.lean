/-
  QuantumProgram — the fewest decimal digits that identify a float.

  A finite nonzero float is a mantissa times a power of two, and stands for
  the interval of reals that round to it.  `Binary.shortest` tries decimal
  grids from coarse to fine; the first grid with a point in the interval gives
  the digits, the point nearest to the value if there are two.  All
  comparisons are between natural numbers, so nothing is rounded on the way.
-/

namespace QuantumProgram

/-- The positive value `mantissa * 2 ^ exponent`.  `narrowBelow` says that the
    next float below is half as far away as the next one above. -/
structure Binary where
  mantissa : Nat
  exponent : Int
  narrowBelow : Bool

/-- The absolute value of a finite float with these bits. -/
def Binary.ofBits (bits : UInt64) : Binary :=
  let e := (bits.toNat >>> 52) % 2048
  let f := bits.toNat % (1 <<< 52)
  if e = 0 then ⟨f, -1074, false⟩
  else ⟨(1 <<< 52) + f, (e : Int) - 1075, f = 0 && e > 1⟩

/-- The value `digits * 10 ^ exponent`. -/
structure Decimal where
  digits : Nat
  exponent : Int
deriving Repr, DecidableEq

/-- Which of two equally near decimals of the same length is taken. -/
inductive TieRule where
  | up
  | toEven
deriving Repr, DecidableEq

/-- The number of decimal digits of a positive number. -/
def digitCount (n : Nat) : Nat := (Nat.toDigits 10 n).length

namespace Binary

/-- The least `k` with `value < 10 ^ k`. -/
def scale (x : Binary) : Int :=
  let whole := (x.mantissa <<< x.exponent.toNat) >>> (-x.exponent).toNat
  if whole > 0 then digitCount whole
  else 1 - (digitCount (((1 <<< (-x.exponent).toNat) - 1) / x.mantissa) : Int)

/-- The grid point chosen among the two that enclose the value on the grid of
    multiples of `10 ^ e`: one that lies in the interval of reals which round
    to the value, the nearer one if both do. -/
def onGrid? (x : Binary) (tie : TieRule) (e : Int) : Option Nat :=
  let unit := (Nat.pow 10 (-e).toNat) <<< x.exponent.toNat
  let den := (Nat.pow 10 e.toNat) <<< (-x.exponent).toNat
  let num := x.mantissa * unit
  let below := 4 * num - (if x.narrowBelow then unit else 2 * unit)
  let above := 4 * num + 2 * unit
  let inside (c : Nat) : Bool :=
    if x.mantissa % 2 = 0 then below ≤ 4 * c * den && 4 * c * den ≤ above
    else below < 4 * c * den && 4 * c * den < above
  let lower := num / den
  let nearer : Nat :=
    match compare (2 * (num % den)) den with
    | .lt => lower
    | .gt => lower + 1
    | .eq =>
      match tie with
      | .up => lower + 1
      | .toEven => lower + lower % 2
  match inside lower, inside (lower + 1) with
  | true, true => some nearer
  | true, false => some lower
  | false, true => some (lower + 1)
  | false, false => none

/-- Try grids of `n`, `n + 1`, … digits.  Seventeen digits always identify a
    float, so the last grid is taken without a test. -/
def search (x : Binary) (tie : TieRule) (k : Int) : (tries n : Nat) → Decimal
  | 0, n => ⟨((x.onGrid? tie (k - n)).getD 0), k - n⟩
  | tries + 1, n =>
    match x.onGrid? tie (k - n) with
    | some d => ⟨d, k - n⟩
    | none => search x tie k tries (n + 1)

end Binary

/-- Move the factors ten of the digits into the exponent. -/
def Decimal.strip (d : Decimal) : (steps : Nat) → Decimal
  | 0 => d
  | steps + 1 =>
    if d.digits % 10 = 0 then Decimal.strip ⟨d.digits / 10, d.exponent + 1⟩ steps else d

/-- **The shortest decimal that identifies a positive value.** -/
def Binary.shortest (x : Binary) (tie : TieRule) : Decimal :=
  (x.search tie x.scale 16 1).strip 17

end QuantumProgram
