/-!
# `CellLisp.Number.Binary32` — single-precision numbers

A single-precision number is its 32 bits: a sign, an exponent field of eight
bits and a fraction of 23.  All arithmetic is done exactly on integers and
rounded once, by one rule:

    ofRatio s n d     the number nearest to ± n/d; a tie goes to the even
                      significand; beyond the largest finite number, infinity

Every finite magnitude is a whole number of `2 ^ -149`, its `units`; an infinite
one is given the next power of two, so that `rank` orders all but the NaNs.

    operation         NaN operand        no defined result           otherwise
    add, sub          that NaN, quiet    ∞ - ∞            → NaN      exact, rounded
    mul               that NaN, quiet    0 · ∞            → NaN      exact, rounded
    div               that NaN, quiet    0 / 0, ∞ / ∞     → NaN      exact, rounded
-/

namespace CellLisp

/-- Quotient of two naturals rounded to nearest, ties to even. -/
def roundDiv (n d : Nat) : Nat :=
  let q := n / d
  let r := n % d
  if 2 * r < d then q else if d < 2 * r then q + 1 else q + q % 2

/-- Ten to a power. -/
def pow10 (n : Nat) : Nat := Nat.pow 10 n

/-- `n` rounded to `p` significant bits, ties to even. -/
def roundBits (p n : Nat) : Nat :=
  let excess := n.log2 + 1 - p
  if excess = 0 then n else roundDiv n (1 <<< excess) <<< excess

/-- A single-precision number, by its bits. -/
structure Binary32 where
  /-- Sign, exponent field and fraction, from the top. -/
  bits : UInt32
  deriving DecidableEq, Inhabited, Repr

namespace Binary32

/-! ## Fields -/

/-- The sign bit. -/
def negative (x : Binary32) : Bool := x.bits.toNat >>> 31 == 1

/-- The biased exponent. -/
def exponent (x : Binary32) : Nat := x.bits.toNat >>> 23 % 256

/-- The stored fraction. -/
def fraction (x : Binary32) : Nat := x.bits.toNat % 0x800000

/-- Neither an infinity nor a NaN. -/
def isFinite (x : Binary32) : Bool := x.exponent != 255

/-- Not a number. -/
def isNaN (x : Binary32) : Bool := x.exponent == 255 && x.fraction != 0

/-- An infinity of either sign. -/
def isInfinite (x : Binary32) : Bool := x.exponent == 255 && x.fraction == 0

/-- Zero of either sign. -/
def isZero (x : Binary32) : Bool := x.bits.toNat % 0x80000000 == 0

/-- The significand with its hidden bit. -/
def significand (x : Binary32) : Nat :=
  if x.exponent = 0 then x.fraction else x.fraction + 0x800000

/-- Power of two of one unit of the significand, raised by 149. -/
def shift (x : Binary32) : Nat := x.exponent - 1

/-- Magnitude as a multiple of `2 ^ -149`. -/
def units (x : Binary32) : Nat := x.significand <<< x.shift

/-- Signed magnitude; orders all numbers but the NaNs. -/
def rank (x : Binary32) : Int := if x.negative then -x.units else x.units

/-! ## Construction -/

/-- Bits from a sign and a magnitude field. -/
def ofFields (negative : Bool) (magnitude : Nat) : Binary32 :=
  ⟨UInt32.ofNat ((if negative then 0x80000000 else 0) + magnitude)⟩

/-- A signed zero. -/
def zero (negative : Bool) : Binary32 := ofFields negative 0

/-- A signed infinity. -/
def infinity (negative : Bool) : Binary32 := ofFields negative 0x7F800000

/-- The NaN of an operation without a defined result. -/
def undefined : Binary32 := ⟨0xFFC00000⟩

/-- The same NaN with its quiet bit set. -/
def quiet (x : Binary32) : Binary32 := ⟨x.bits ||| 0x00400000⟩

/-- Largest `k` with `2 ^ k ≤ n / d`. -/
def floorLog2 (n d : Nat) : Int :=
  let k : Int := (n.log2 : Int) - d.log2
  let atLeast := if 0 ≤ k then d <<< k.toNat ≤ n else d ≤ n <<< (-k).toNat
  if atLeast then k else k - 1

/-- The number nearest to `± n / d`, ties to even; infinity when that is beyond
the finite ones. -/
def ofRatio (negative : Bool) (n d : Nat) : Binary32 :=
  if n = 0 then zero negative
  else
    let q := max (floorLog2 n d - 23) (-149)
    let m := if 0 ≤ q then roundDiv n (d <<< q.toNat) else roundDiv (n <<< (-q).toNat) d
    let magnitude := (q + 149).toNat <<< 23 + m
    if 0x7F800000 ≤ magnitude then infinity negative else ofFields negative magnitude

/-- The number nearest to an integer. -/
def ofInt (i : Int) : Binary32 := ofRatio (i < 0) i.natAbs 1

/-! ## Arithmetic -/

/-- Opposite sign, NaNs included. -/
def neg (x : Binary32) : Binary32 := ⟨x.bits ^^^ 0x80000000⟩

/-- Applies `f` unless an operand is a NaN, which is then the result. -/
def unlessNaN (f : Binary32 → Binary32 → Binary32) (x y : Binary32) : Binary32 :=
  if x.isNaN then x.quiet else if y.isNaN then y.quiet else f x y

/-- Sum of two numbers that are not NaN. -/
def addCore (x y : Binary32) : Binary32 :=
  if x.isInfinite then
    if y.isInfinite && x.negative != y.negative then undefined else x
  else if y.isInfinite then y
  else
    let sum := x.rank + y.rank
    if sum = 0 then zero (x.negative && y.negative) else ofRatio (sum < 0) sum.natAbs (1 <<< 149)

/-- Product of two numbers that are not NaN. -/
def mulCore (x y : Binary32) : Binary32 :=
  let s := x.negative != y.negative
  if x.isInfinite || y.isInfinite then
    if x.isZero || y.isZero then undefined else infinity s
  else ofRatio s (x.units * y.units) (1 <<< 298)

/-- Quotient of two numbers that are not NaN. -/
def divCore (x y : Binary32) : Binary32 :=
  let s := x.negative != y.negative
  if x.isInfinite then if y.isInfinite then undefined else infinity s
  else if y.isInfinite then zero s
  else if y.isZero then if x.isZero then undefined else infinity s
  else ofRatio s x.units y.units

/-- Sum. -/
def add (x y : Binary32) : Binary32 := unlessNaN addCore x y

/-- Difference. -/
def sub (x y : Binary32) : Binary32 := unlessNaN (fun x y => addCore x y.neg) x y

/-- Product. -/
def mul (x y : Binary32) : Binary32 := unlessNaN mulCore x y

/-- Quotient. -/
def div (x y : Binary32) : Binary32 := unlessNaN divCore x y

/-! ## Order -/

/-- Order of two numbers; `none` when either is a NaN. -/
def compare? (x y : Binary32) : Option Ordering :=
  if x.isNaN || y.isNaN then none else some (compare x.rank y.rank)

/-- An integer in units of `2 ^ -149`, after rounding to the 53 bits in which
mixed comparisons are made. -/
def intRank (i : Int) : Int :=
  let m : Int := (roundBits 53 i.natAbs <<< 149 : Nat)
  if i < 0 then -m else m

/-- Order of an integer and a number; `none` for a NaN. -/
def compareInt? (i : Int) (y : Binary32) : Option Ordering :=
  if y.isNaN then none else some (compare (intRank i) y.rank)

end Binary32
end CellLisp
