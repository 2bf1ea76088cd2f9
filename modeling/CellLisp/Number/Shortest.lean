import CellLisp.Number.Binary32

/-!
# `CellLisp.Number.Shortest` — the fewest digits that read back

The text of a number is made of the fewest decimal digits that read back as the
same number, and of those the nearest to it; a tie goes up.  The numbers that
round to `x` form an interval around it, its ends included iff the significand
is even.  On the grid of multiples of `10 ^ k` only the two neighbours of `x`
need be tried, and the coarsest grid with a neighbour inside has the fewest
digits.

    decimal exponent e      written as           example
    -4 ≤ e ≤ 15             positional           0.00012, 16777216.0
    otherwise               with an exponent     1e16, 1.2345e-7
    zero                    positional           0.0, -0.0
-/

namespace CellLisp.Binary32

/-- Digits and a power of ten: `digits * 10 ^ power`. -/
structure Decimal where
  /-- The digits, as one natural. -/
  digits : Nat
  /-- Power of ten of the last digit. -/
  power : Int
  deriving DecidableEq, Repr

/-- Twice the distance below a number to the end of its interval, in quarters of
a unit of the significand; halved just above a power of two. -/
def lowerGap (x : Binary32) : Nat := if x.fraction = 0 ∧ 1 < x.exponent then 1 else 2

/-- Whether `c / scale` lies in the interval `low .. high` over the same scale. -/
def inside (closed : Bool) (low high c : Nat) : Bool :=
  if closed then low ≤ c && c ≤ high else low < c && c < high

/-- The neighbour of `v / scale` on the grid of multiples of `unit / scale` that
lies inside, the nearer if both do and the upper one on a tie. -/
def gridNeighbour? (closed : Bool) (low v high unit : Nat) : Option Nat :=
  let d := v / unit
  let below := inside closed low high (d * unit)
  let above := inside closed low high ((d + 1) * unit)
  if below && above then some (if unit ≤ 2 * (v % unit) then d + 1 else d)
  else if below then some d
  else if above then some (d + 1)
  else none

/-- Tries the grids `10 ^ power`, `10 ^ (power - 1)`, … in turn, `n` of them.  The
interval is given in units of `2 ^ -151`. -/
def searchGrid (closed : Bool) (low v high : Nat) : Nat → Int → Decimal
  | 0, power => ⟨0, power⟩
  | n + 1, power =>
    let found :=
      if 0 ≤ power then gridNeighbour? closed low v high (pow10 power.toNat <<< 151)
      else
        let s := pow10 (-power).toNat
        gridNeighbour? closed (low * s) (v * s) (high * s) (1 <<< 151)
    match found with
    | some d => ⟨d, power⟩
    | none => searchGrid closed low v high n (power - 1)

/-- The shortest decimal that reads back as the magnitude of a finite number
other than zero. -/
def shortest (x : Binary32) : Decimal :=
  let unit := 1 <<< x.shift
  let v := 4 * x.significand * unit
  searchGrid (x.significand % 2 = 0) (v - x.lowerGap * unit) v (v + 2 * unit) 96 39

/-- A text of `n` zeros. -/
def zeros (n : Nat) : String := String.ofList (List.replicate n '0')

/-- A decimal in positional notation, with at least one digit after the point. -/
def Decimal.positional (d : Decimal) : String :=
  let ds := toString d.digits
  if 0 ≤ d.power then ds ++ zeros d.power.toNat ++ ".0"
  else
    let places := (-d.power).toNat
    if places < ds.length then
      let whole := ds.length - places
      String.ofList (ds.toList.take whole) ++ "." ++ String.ofList (ds.toList.drop whole)
    else "0." ++ zeros (places - ds.length) ++ ds

/-- Decimal exponent of the first digit. -/
def Decimal.leading (d : Decimal) : Int := d.power + (toString d.digits).length - 1

/-- A decimal with one digit before the point and an exponent. -/
def Decimal.scientific (d : Decimal) : String :=
  match (toString d.digits).toList with
  | [] => ""
  | first :: rest =>
    let tail := if rest.isEmpty then "" else "." ++ String.ofList rest
    first.toString ++ tail ++ "e" ++ toString d.leading

/-- A decimal in the notation its size calls for. -/
def Decimal.render (d : Decimal) : String :=
  if -4 ≤ d.leading ∧ d.leading ≤ 15 then d.positional else d.scientific

/-- The text of a number. -/
def text (x : Binary32) : String :=
  if x.isNaN then "NaN"
  else
    let sign := if x.negative then "-" else ""
    if x.isInfinite then sign ++ "inf"
    else if x.isZero then sign ++ "0.0"
    else sign ++ x.shortest.render

end CellLisp.Binary32
