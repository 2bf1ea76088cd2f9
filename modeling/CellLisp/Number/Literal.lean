import CellLisp.Number.Digits

/-!
# `CellLisp.Number.Literal` — numerals

A token is a numeral when a digit stands first in it, perhaps after a sign or a
point or both, and it has one of the two forms

    integer    sign? digit+                           in 60 bits, two's complement
    decimal    sign? (digit+ point? digit* | point digit+) (e sign? digit+)?

An integer out of range is read as a decimal.  A decimal is rounded to the
nearest single-precision number; one that would round to infinity is no numeral.
Digits of an exponent that has reached 65536 are passed over, so `1e655369` is
`1e65536`; that shows only behind a run of as many zeros.
-/

namespace CellLisp

/-- Least integer value. -/
def intMin : Int := -0x800000000000000

/-- Greatest integer value. -/
def intMax : Int := 0x7FFFFFFFFFFFFFF

/-- A number of the language. -/
inductive Number where
  | int (value : Int)
  | float (value : Binary32)
  deriving DecidableEq, Repr

namespace Literal

open Digits (isDigit digitValue)

/-- A sign at the front, true when it is negative, and the rest. -/
def splitSign : List Char → Bool × List Char
  | '-' :: cs => (true, cs)
  | '+' :: cs => (false, cs)
  | cs => (false, cs)

/-- A signed run of digits, its size measured by `value`. -/
def signed? (value : List Char → Nat) (cs : List Char) : Option Int :=
  let (negative, ds) := splitSign cs
  if ds.isEmpty || !ds.all isDigit then none
  else
    let n : Int := value ds
    some (if negative then -n else n)

/-- An integer. -/
def integer? (cs : List Char) : Option Int := signed? Digits.value cs

/-- Size from which on an exponent takes no more digits. -/
def exponentLimit : Nat := 65536

/-- Size of an exponent: the digits up to the one that brings it to the limit. -/
def sizeOfExponent (ds : List Char) : Nat :=
  ds.foldl (fun n c => if n < exponentLimit then n * 10 + digitValue c else n) 0

/-- The exponent part: absent, or a mark and a signed run of digits. -/
def exponent? : List Char → Option Int
  | [] => some 0
  | c :: cs => if c == 'e' || c == 'E' then signed? sizeOfExponent cs else none

/-- A decimal point and the digits after it, if a point stands here. -/
def splitFraction : List Char → Bool × List Char × List Char
  | '.' :: cs => (true, cs.takeWhile isDigit, cs.dropWhile isDigit)
  | cs => (false, [], cs)

/-- Rounds the number with digits `ds` times ten to a power; far outside the finite
range the answer depends only on where the first digit other than zero stands. -/
def roundDecimal (negative : Bool) (ds : List Char) (power : Int) : Binary32 :=
  let ds := ds.dropWhile (· == '0')
  let leading := power + ds.length
  if ds.isEmpty || leading < -60 then .zero negative
  else if 60 < leading then .infinity negative
  else if 0 ≤ power then .ofRatio negative (Digits.value ds * pow10 power.toNat) 1
  else .ofRatio negative (Digits.value ds) (pow10 (-power).toNat)

/-- A decimal, rounded. -/
def decimal? (cs : List Char) : Option Binary32 :=
  let (negative, cs) := splitSign cs
  let whole := cs.takeWhile isDigit
  let (_, fraction, rest) := splitFraction (cs.dropWhile isDigit)
  if whole.isEmpty && fraction.isEmpty then none
  else (exponent? rest).map fun e =>
    roundDecimal negative (whole ++ fraction) (e - fraction.length)

/-- Whether a digit comes first, after at most a sign and a point. -/
def startsNumeric (cs : List Char) : Bool :=
  match (splitSign cs).2 with
  | '.' :: d :: _ => isDigit d
  | d :: _ => isDigit d
  | [] => false

/-- The reading as a decimal, when it is finite. -/
def finite? (cs : List Char) : Option Number :=
  match decimal? cs with
  | some x => if x.isFinite then some (.float x) else none
  | none => none

end Literal

/-- The number that a token writes, if it is a numeral. -/
def Number.parse? (token : String) : Option Number :=
  let cs := token.toList
  if !Literal.startsNumeric cs then none
  else match Literal.integer? cs with
    | some i => if intMin ≤ i ∧ i ≤ intMax then some (.int i) else Literal.finite? cs
    | none => Literal.finite? cs

end CellLisp
